import TaskGrid.Machine.Run

/-!
# Reachable machines

Which machines a grid can come to be: commands are given one after the other, each when the call
before it has returned, and clients may answer with commands of their own wherever they are told
an event.  A `Conduct` says which commands may be given from outside and which may be answers; the
conduct of clients that never answer is `Conduct.quiet`.

A run also carries the commands that were given in it, so that what was offered or asked for in
the course of a run can be spoken about.

## Main definitions

* `Command.surface`: the part of the grid that a command speaks to.
* `Machine.Run`: a machine is reached from a world by commands in a certain order.
* `Machine.Reached`: a world is reached between calls.
-/

namespace TaskGrid

/-- A part of the grid that commands speak to. -/
inductive Surface where
  /-- Actions, workers and passes. -/
  | scheduler
  /-- Workers alone, without a pass and without a report. -/
  | pool
  /-- Data, copies and rescues. -/
  | catalog
  /-- Applications, their nodes and the sink of rescue orders. -/
  | agent
  /-- Mailboxes of events. -/
  | mail
  deriving DecidableEq

/-- The part of the grid that a command speaks to. -/
def Command.surface : Command → Surface
  | .addWorker .. => .scheduler
  | .reduceWorker .. => .scheduler
  | .removeWorker .. => .scheduler
  | .loseWorker .. => .scheduler
  | .submit .. => .scheduler
  | .pass => .scheduler
  | .markRunning .. => .scheduler
  | .complete .. => .scheduler
  | .fail .. => .scheduler
  | .cancel .. => .scheduler
  | .setListener .. => .scheduler
  | .pool .. => .pool
  | .register .. => .catalog
  | .link .. => .catalog
  | .addReplica .. => .catalog
  | .mount .. => .catalog
  | .unmountHost .. => .catalog
  | .startCopy .. => .catalog
  | .listenToCopy .. => .catalog
  | .finishCopy .. => .catalog
  | .failCopy .. => .catalog
  | .removeHost .. => .catalog
  | .markObsolete .. => .catalog
  | .takeObsolete .. => .catalog
  | .forgetHost .. => .catalog
  | .setInMemory .. => .catalog
  | .setSize .. => .catalog
  | .subscribe .. => .catalog
  | .unsubscribe .. => .catalog
  | .rescue .. => .catalog
  | .offerNode .. => .agent
  | .reduceNode .. => .agent
  | .removeNode .. => .agent
  | .loseNode .. => .agent
  | .importData .. => .agent
  | .runTask .. => .agent
  | .finishApplication .. => .agent
  | .noteRescues => .agent
  | .dispatchRescues .. => .agent
  | .dispatch .. => .agent
  | .runDeferred => .agent
  | .collectReports => .agent
  | .dropReports => .agent
  | .dismissAgent => .agent
  | .startSession .. => .agent
  | .addSessionNode .. => .agent
  | .finishSession .. => .agent
  | .tellSession .. => .agent
  | .collectMail .. => .mail
  | .closeMailbox .. => .mail

/-- Which commands may be given in a run. -/
structure Conduct where
  /-- The commands that may be given between calls. -/
  asks : Command → Prop
  /-- The commands with which a client may answer an event. -/
  answers : Command → Prop

/-- Clients never answer. -/
def Conduct.quiet (asks : Command → Prop) : Conduct := ⟨asks, fun _ => False⟩

/-- Clients may do whatever may be done between calls. -/
def Conduct.lively (asks : Command → Prop) : Conduct := ⟨asks, asks⟩

namespace Machine

/-- A machine is reached from the world `w₀` by the commands of a list, in their order. -/
inductive Run (rule : Conduct) (w₀ : World) : List Command → Machine → Prop where
  /-- Nothing has happened. -/
  | start : Run rule w₀ [] ⟨w₀, []⟩
  /-- A command is given when the call before it has returned. -/
  | ask {l : List Command} {w : World} {c : Command} (token : Nat) :
    Run rule w₀ l ⟨w, []⟩ → rule.asks c → Run rule w₀ (l ++ [c]) ⟨w, [.obey token c]⟩
  /-- An item is carried out. -/
  | item {l : List Command} {w : World} {i : Item} {rest : List Item} :
    Run rule w₀ l ⟨w, i :: rest⟩ → Run rule w₀ l (step ⟨w, i :: rest⟩)
  /-- A client answers. -/
  | answer {l : List Command} {w : World} {p : Prompt} {rest : List Item}
      (given : List (Nat × Command)) :
    Run rule w₀ l ⟨w, .prompt p :: rest⟩ → (∀ g ∈ given, rule.answers g.2) →
      Run rule w₀ (l ++ given.map Prod.snd)
        ⟨w, given.map (fun g => .obey g.1 g.2) ++ rest⟩

/-- A world is reached between calls. -/
def Reached (rule : Conduct) (w₀ w : World) : Prop := ∃ l, Run rule w₀ l ⟨w, []⟩

theorem Reached.refl (rule : Conduct) (w : World) : Reached rule w w := ⟨[], .start⟩

/-- The steps of a call, none of whose prompts is answered, are steps of a run. -/
theorem Run.settle {rule : Conduct} {w₀ : World} {l : List Command} {m : Machine}
    (h : Run rule w₀ l m) (n : Nat) :
    Run rule w₀ l (Machine.settle (⟨fun s _ _ => (s, [])⟩ : Client Unit) n () m).2 := by
  induction n generalizing m with
  | zero => exact h
  | succ n ih =>
    obtain ⟨w, agenda⟩ := m
    cases agenda with
    | nil => simpa using h
    | cons i rest =>
      have hs := ih h.item
      cases i <;> exact hs

end Machine

end TaskGrid
