import Mathlib.Algebra.GroupWithZero.Nat
import TaskGrid.Machine.Reach

/-!
# Courses

A course is a run together with its moments: which items were carried out, and in which worlds.
What a theorem says about the past of a run --- what was offered to a worker since it registered,
whether a link pointed a name elsewhere --- is said about the moments of its course.

* `Machine.Course`: a run with its moments, the latest first.
* `Machine.Course.run`, `Machine.Run.exists_course`: courses are the runs.
* `Machine.Onward`, `Machine.Onward.next`: how a course goes on from a machine.
* `Moment.offer?`, `offeredTo`: what was offered to a worker in a course.
-/

namespace TaskGrid

/-- A moment of a run: an item that is carried out, in the world in which it is. -/
structure Moment where
  /-- The world. -/
  world : World
  /-- The item. -/
  item : Item

/-- Whether an item lets the outside answer. -/
def Item.isPrompt : Item → Bool
  | .prompt _ => true
  | _ => false

namespace Machine

/-- A machine is reached from the world `w₀` in the moments of a list, the latest first. -/
inductive Course (rule : Conduct) (w₀ : World) : List Moment → Machine → Prop where
  /-- Nothing has happened. -/
  | start : Course rule w₀ [] ⟨w₀, []⟩
  /-- A command is given when the call before it has returned. -/
  | ask {t : List Moment} {w : World} {c : Command} (token : Nat) :
    Course rule w₀ t ⟨w, []⟩ → rule.asks c → Course rule w₀ t ⟨w, [.obey token c]⟩
  /-- An item is carried out. -/
  | item {t : List Moment} {w : World} {i : Item} {rest : List Item} :
    Course rule w₀ t ⟨w, i :: rest⟩ → Course rule w₀ (⟨w, i⟩ :: t) (step ⟨w, i :: rest⟩)
  /-- A client answers. -/
  | answer {t : List Moment} {w : World} {p : Prompt} {rest : List Item}
      (given : List (Nat × Command)) :
    Course rule w₀ t ⟨w, .prompt p :: rest⟩ → (∀ g ∈ given, rule.answers g.2) →
      Course rule w₀ t ⟨w, given.map (fun g => .obey g.1 g.2) ++ rest⟩

variable {rule : Conduct} {w₀ : World}

/-- A course is a run. -/
theorem Course.run {t : List Moment} {m : Machine} (h : Course rule w₀ t m) :
    ∃ l, Run rule w₀ l m := by
  induction h with
  | start => exact ⟨[], .start⟩
  | ask token _ hc ih =>
    obtain ⟨l, hl⟩ := ih
    exact ⟨_, .ask token hl hc⟩
  | item _ ih =>
    obtain ⟨l, hl⟩ := ih
    exact ⟨l, .item hl⟩
  | answer given _ hg ih =>
    obtain ⟨l, hl⟩ := ih
    exact ⟨_, .answer given hl hg⟩

/-- Every run has its course. -/
theorem Run.exists_course {l : List Command} {m : Machine} (h : Run rule w₀ l m) :
    ∃ t, Course rule w₀ t m := by
  induction h with
  | start => exact ⟨[], .start⟩
  | ask token _ hc ih =>
    obtain ⟨t, ht⟩ := ih
    exact ⟨t, .ask token ht hc⟩
  | item _ ih =>
    obtain ⟨t, ht⟩ := ih
    exact ⟨_, .item ht⟩
  | answer given _ hg ih =>
    obtain ⟨t, ht⟩ := ih
    exact ⟨t, .answer given ht hg⟩

/-- A machine is reached from the machine `m₀` in the moments of a list, the latest first. -/
inductive Onward (rule : Conduct) (m₀ : Machine) : List Moment → Machine → Prop where
  /-- Nothing has happened. -/
  | start : Onward rule m₀ [] m₀
  /-- A command is given when the call before it has returned. -/
  | ask {t : List Moment} {w : World} {c : Command} (token : Nat) :
    Onward rule m₀ t ⟨w, []⟩ → rule.asks c → Onward rule m₀ t ⟨w, [.obey token c]⟩
  /-- An item is carried out. -/
  | item {t : List Moment} {w : World} {i : Item} {rest : List Item} :
    Onward rule m₀ t ⟨w, i :: rest⟩ → Onward rule m₀ (⟨w, i⟩ :: t) (step ⟨w, i :: rest⟩)
  /-- A client answers. -/
  | answer {t : List Moment} {w : World} {p : Prompt} {rest : List Item}
      (given : List (Nat × Command)) :
    Onward rule m₀ t ⟨w, .prompt p :: rest⟩ → (∀ g ∈ given, rule.answers g.2) →
      Onward rule m₀ t ⟨w, given.map (fun g => .obey g.1 g.2) ++ rest⟩

/-- A course leads to each of its moments and onward from it. -/
theorem Course.onward {t₁ t₀ : List Moment} {x : Moment} {m : Machine}
    (h : Course rule w₀ (t₁ ++ x :: t₀) m) :
    ∃ rest, Course rule w₀ t₀ ⟨x.world, x.item :: rest⟩ ∧
      Onward rule (step ⟨x.world, x.item :: rest⟩) t₁ m := by
  generalize ht : t₁ ++ x :: t₀ = t at h
  induction h generalizing t₁ with
  | start => simp at ht
  | ask token _ hc ih =>
    obtain ⟨rest, hbefore, hon⟩ := ih ht
    exact ⟨rest, hbefore, hon.ask token hc⟩
  | answer given _ hg ih =>
    obtain ⟨rest, hbefore, hon⟩ := ih ht
    exact ⟨rest, hbefore, hon.answer given hg⟩
  | @item t w i rest hc ih =>
    cases t₁ with
    | nil =>
      obtain ⟨rfl, rfl⟩ := List.cons.inj ht
      exact ⟨rest, hc, .start⟩
    | cons y t₁ =>
      obtain ⟨rfl, htail⟩ := List.cons.inj ht
      obtain ⟨rest, hbefore, hon⟩ := ih htail
      exact ⟨rest, hbefore, hon.item⟩

/-- The moments before a moment of a course are a course that leads to it. -/
theorem Course.before {t₁ t₀ : List Moment} {x : Moment} {m : Machine}
    (h : Course rule w₀ (t₁ ++ x :: t₀) m) :
    ∃ rest, Course rule w₀ t₀ ⟨x.world, x.item :: rest⟩ := by
  obtain ⟨rest, hbefore, -⟩ := h.onward
  exact ⟨rest, hbefore⟩

/-- An item that comes first and is no prompt is the next to be carried out. -/
theorem Onward.next {t : List Moment} {w : World} {i : Item} {rest : List Item} {m : Machine}
    (h : Onward rule ⟨w, i :: rest⟩ t m) (hi : i.isPrompt = false) :
    t = [] ∧ m = ⟨w, i :: rest⟩ ∨
      ∃ t', t = t' ++ [⟨w, i⟩] ∧ Onward rule (step ⟨w, i :: rest⟩) t' m := by
  induction h with
  | start => exact .inl ⟨rfl, rfl⟩
  | ask token _ hc ih =>
    rcases ih with ⟨-, he⟩ | ⟨t', rfl, hon⟩
    · cases he
    · exact .inr ⟨t', rfl, hon.ask token hc⟩
  | item _ ih =>
    rcases ih with ⟨rfl, he⟩ | ⟨t', rfl, hon⟩
    · cases he
      exact .inr ⟨[], rfl, .start⟩
    · exact .inr ⟨_ :: t', rfl, hon.item⟩
  | answer given _ hg ih =>
    rcases ih with ⟨-, he⟩ | ⟨t', rfl, hon⟩
    · cases he
      cases hi
    · exact .inr ⟨t', rfl, hon.answer given hg⟩

/-- Whoever returns from all calls carries out what comes first. -/
theorem Onward.next_of_done {t : List Moment} {w : World} {i : Item} {rest : List Item}
    {m : Machine} (h : Onward rule ⟨w, i :: rest⟩ t m) (hi : i.isPrompt = false)
    (hdone : m.agenda = []) :
    ∃ t', t = t' ++ [⟨w, i⟩] ∧
      Onward rule ⟨(w.carryOut i).1, (w.carryOut i).2 ++ rest⟩ t' m := by
  rcases h.next hi with ⟨-, rfl⟩ | hnext
  · cases hdone
  · exact hnext

/-! ## Following a machine -/

/-- The machine after `n` items. -/
def advance : Nat → Machine → Machine
  | 0, m => m
  | n + 1, m => advance n m.step

/-- The moments of `n` items, the latest first. -/
def moments : Nat → Machine → List Moment
  | 0, _ => []
  | n + 1, m => moments n m.step ++ (m.agenda.head?.map fun i => ⟨m.world, i⟩).toList

/-- Items that are carried out one after the other continue a course. -/
theorem Course.advance {t : List Moment} {m : Machine} (h : Course rule w₀ t m) (n : Nat) :
    Course rule w₀ (moments n m ++ t) (m.advance n) := by
  induction n generalizing t m with
  | zero => exact h
  | succ n ih =>
    obtain ⟨w, agenda⟩ := m
    cases agenda with
    | nil => simpa [Machine.advance, moments] using ih h
    | cons i rest => simpa [Machine.advance, moments] using ih h.item

/-- The machine when a command is given. -/
def asked (w : World) (token : Nat) (c : Command) : Machine := ⟨w, [.obey token c]⟩

/-- A call that has returned after `n` items continues a course. -/
theorem Course.call {t : List Moment} {w : World} {c : Command} (h : Course rule w₀ t ⟨w, []⟩)
    (token n : Nat) (hc : rule.asks c) (hn : ((asked w token c).advance n).agenda.isEmpty = true) :
    Course rule w₀ (moments n (asked w token c) ++ t)
      ⟨((asked w token c).advance n).world, []⟩ := by
  have hend := (h.ask token hc).advance n
  rw [← asked] at hend
  generalize (asked w token c).advance n = m at hn hend ⊢
  obtain ⟨w', agenda⟩ := m
  obtain rfl : agenda = [] := List.isEmpty_iff.mp hn
  exact hend

/-- A client that is told something may answer. -/
theorem Course.respond {t : List Moment} {m : Machine} (h : Course rule w₀ t m)
    (hp : m.agenda.head?.any Item.isPrompt = true) (given : List (Nat × Command))
    (hg : ∀ g ∈ given, rule.answers g.2) :
    Course rule w₀ t ⟨m.world, given.map (fun g => .obey g.1 g.2) ++ m.agenda.tail⟩ := by
  obtain ⟨w, agenda⟩ := m
  obtain ⟨i, hi, hp⟩ := (Option.any_eq_true _ _).mp hp
  cases agenda with
  | nil => cases hi
  | cons j rest =>
    obtain rfl : j = i := Option.some.inj hi
    cases j with
    | prompt p => exact h.answer given hg
    | _ => cases hp

end Machine

/-! ## Offers -/

/-- The registration number of the worker that an offer under a key goes to: that of the worker
registered there, or else the next one. -/
def Pool.offeredSeq (p : Pool) (key : WorkerKey) : Nat :=
  ((p.worker? key).map Worker.seq).getD p.nextSeq

/-- The capacity that is offered at a moment, and the key under which it is. -/
def Moment.offer? (m : Moment) : Option (WorkerKey × Capacity) :=
  match m.item with
  | .obey _ (.addWorker key offered _) => some (key, offered)
  | .obey _ (.pool (.add key offered _)) => some (key, offered)
  | .obey _ (.offerNode o app) =>
    m.world.agent.bind fun s => (s.keyFor o.name app).toOption.map fun key => (key, o.description)
  | .prepare p =>
    match p.offers with
    | [] => none
    | o :: _ =>
      if o.description.get .primary = 0 then none
      else (m.world.sessions.keyFor o.name p.app).toOption.map fun key => (key, o.description)
  | .takeOver i =>
    match i.sources with
    | .location _ (some o) :: _ =>
      let key := WorkerKey.permanent o.name
      if (m.world.pool.worker? key).isSome then none else some (key, o.description)
    | _ => none
  | _ => none

/-- The units of a category that are offered at a moment to the worker registered as `seq`. -/
def Moment.offeredTo (m : Moment) (seq : Nat) (c : Category) : Nat :=
  match m.offer? with
  | none => 0
  | some (key, offered) => if m.world.pool.offeredSeq key = seq then (offered.get c).count else 0

/-- The units of a category that were offered to the worker registered as `seq`. -/
def offeredTo (t : List Moment) (seq : Nat) (c : Category) : Nat :=
  (t.map fun m => m.offeredTo seq c).sum

@[simp] theorem offeredTo_cons (m : Moment) (t : List Moment) (seq : Nat) (c : Category) :
    offeredTo (m :: t) seq c = m.offeredTo seq c + offeredTo t seq c := by
  rw [offeredTo, List.map_cons, List.sum_cons, offeredTo]

end TaskGrid
