import TaskGrid.Machine.Obey

/-!
# Runs of the grid

The machine is a world with an agenda.  A step takes the first item off the agenda, carries it out
and puts the items that it leads to in its place.  When the agenda is empty the outermost call has
returned.

The outside takes part at prompts only.  A `Client` is what is outside: its answer to a prompt are
items of its own, which come first on the agenda.

## Main definitions

* `Machine.step`: one item.
* `Machine.settle`: steps until the agenda is empty, with a client.

## Main statements

* `Machine.settle_add`: a run may be cut anywhere, so more steps never change a finished run.
-/

namespace TaskGrid

namespace World

/-- Carries out an item. -/
def carryOut (w : World) : Item → Effect
  | .obey token c => w.obey token c
  | .note n => (w.note n, [])
  | .prompt _ => (w, [])
  | .deliver m e => w.deliver m e
  | .report assignments capacity => (w.report assignments capacity, [])
  | .tellCapacity key free => (w.tellCapacity key free, [])
  | .tellRemoved r last => (w.tellRemoved r last, [])
  | .tellHook hook r => w.tellHook hook r
  | .retire key seq => w.retire key seq
  | .failBound key ids => w.failBound key ids
  | .pass token => w.runPass token
  | .wake name => w.wake name
  | .addReplica name r token => w.addReplica name r token
  | .closeSession app => w.closeSession app
  | .endSession app => w.endSession app
  | .releaseNode key => w.releaseNode key
  | .handOver orders => w.handOver orders
  | .rescue b => w.rescue b
  | .runDeferred => w.runDeferred
  | .joinNode app v next => w.joinNode app v next
  | .takeOver i => w.takeOver i
  | .takenOver name sources next => w.takenOver name sources next
  | .prepare p => w.prepare p

end World

/-- A world with what is still to be done in it. -/
structure Machine where
  /-- The world. -/
  world : World
  /-- What is to be done, the first item first. -/
  agenda : List Item := []

/-- What is outside the grid: at a prompt it answers with items, as its own state says. -/
structure Client (σ : Type) where
  /-- The answer to a prompt. -/
  answer : σ → World → Prompt → σ × List Item

namespace Machine

/-- Carries out the first item. -/
def step (m : Machine) : Machine :=
  match m.agenda with
  | [] => m
  | i :: rest =>
    let (w, items) := m.world.carryOut i
    ⟨w, items ++ rest⟩

/-- One step with a client, who answers where there is a prompt. -/
def stepWith {σ : Type} (client : Client σ) (s : σ) (m : Machine) : σ × Machine :=
  match m.agenda with
  | .prompt p :: rest =>
    let (s, items) := client.answer s m.world p
    (s, ⟨m.world, items ++ rest⟩)
  | _ => (s, m.step)

/-- Steps until the agenda is empty, at most `fuel` of them. -/
def settle {σ : Type} (client : Client σ) : Nat → σ → Machine → σ × Machine
  | 0, s, m => (s, m)
  | fuel + 1, s, m =>
    if m.agenda.isEmpty then (s, m)
    else
      let (s, m) := m.stepWith client s
      settle client fuel s m

@[simp] theorem step_nil (w : World) : step ⟨w, []⟩ = ⟨w, []⟩ := rfl

@[simp] theorem step_cons (w : World) (i : Item) (rest : List Item) :
    step ⟨w, i :: rest⟩ = ⟨(w.carryOut i).1, (w.carryOut i).2 ++ rest⟩ := rfl

@[simp] theorem settle_zero {σ : Type} (client : Client σ) (s : σ) (m : Machine) :
    settle client 0 s m = (s, m) := rfl

@[simp] theorem settle_nil {σ : Type} (client : Client σ) (n : Nat) (s : σ) (w : World) :
    settle client n s ⟨w, []⟩ = (s, ⟨w, []⟩) := by cases n <;> rfl

/-- A run of `k + n` steps is a run of `k` steps and then one of `n`. -/
theorem settle_add {σ : Type} (client : Client σ) (k n : Nat) (s : σ) (m : Machine) :
    settle client (k + n) s m =
      settle client n (settle client k s m).1 (settle client k s m).2 := by
  induction k generalizing s m with
  | zero => simp
  | succ k ih =>
    rw [Nat.succ_add]
    obtain ⟨w, agenda⟩ := m
    cases agenda with
    | nil => simp
    | cons i rest => exact ih _ _

/-- More steps never change a finished run. -/
theorem settle_of_finished {σ : Type} {client : Client σ} {k : Nat} {s : σ} {m : Machine}
    (h : (settle client k s m).2.agenda = []) (n : Nat) :
    settle client (k + n) s m = settle client k s m := by
  rw [settle_add]
  generalize settle client k s m = r at h ⊢
  obtain ⟨t, w, agenda⟩ := r
  obtain rfl : agenda = [] := h
  exact settle_nil ..

end Machine

end TaskGrid
