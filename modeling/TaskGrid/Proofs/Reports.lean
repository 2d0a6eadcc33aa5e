import TaskGrid.Proofs.Lifecycle

/-!
# What is free, and what an operation has reported of it

What the listener is to be told of free capacity is collected in the outbox of an operation.  A pass
reports a worker once for every action that it binds there, and the last report is right; the end of
an action reports the worker that it was bound to.  Nothing else is reported in an outbox.

* `Pool.freeOn?`: what is free on a worker.
* `lastFor`: the last report about a worker.
* `Pass.Reports`, `Pass.reports_run`: what a pass reports.
* `Schedule.reports_conclude`: what the end of an action reports.
-/

namespace TaskGrid

/-- What is free on the worker of a key, if it is registered. -/
def Pool.freeOn? (p : Pool) (key : WorkerKey) : Option Capacity := (p.worker? key).map Worker.free

/-- The last value that a list gives for a key. -/
def lastFor (key : WorkerKey) (l : List (WorkerKey × Capacity)) : Option Capacity :=
  l.reverse.findSome? fun r => if r.1 = key then some r.2 else none

section LastFor

variable (key : WorkerKey)

@[simp] theorem lastFor_nil : lastFor key [] = none := rfl

@[simp] theorem lastFor_append (l r : List (WorkerKey × Capacity)) :
    lastFor key (l ++ r) = (lastFor key r).or (lastFor key l) := by
  unfold lastFor
  rw [List.reverse_append, List.findSome?_append]

@[simp] theorem lastFor_singleton (k : WorkerKey) (free : Capacity) :
    lastFor key [(k, free)] = if k = key then some free else none := by
  unfold lastFor
  rw [List.reverse_singleton, List.findSome?_singleton]

end LastFor

namespace Pool

variable {p q : Pool} {key k : WorkerKey} {v : Worker}

theorem freeOn?_of_worker? (h : p.worker? key = some v) : p.freeOn? key = some v.free := by
  rw [freeOn?, h]
  rfl

theorem freeOn?_eq_none_iff : p.freeOn? key = none ↔ p.worker? key = none := Option.map_eq_none_iff

theorem freeOn?_of_insert (h : q.workers = p.workers.insert key v) (k : WorkerKey) :
    q.freeOn? k = if key = k then some v.free else p.freeOn? k := by
  unfold freeOn?
  rw [worker?_of_insert h]
  by_cases hk : k = key
  · rw [if_pos hk, if_pos hk.symm]
    rfl
  · rw [if_neg hk, if_neg (Ne.symm hk)]

theorem freeOn?_of_erase (h : q.workers = p.workers.erase key) (k : WorkerKey) :
    q.freeOn? k = if key = k then none else p.freeOn? k := by
  unfold freeOn?
  rw [worker?_of_erase h]
  by_cases hk : k = key
  · rw [if_pos hk, if_pos hk.symm]
    rfl
  · rw [if_neg hk, if_neg (Ne.symm hk)]

end Pool

/-! ## Outboxes -/

/-- Two outboxes with the same bindings and reports. -/
structure Outbox.Alike (o o' : Outbox) : Prop where
  /-- The same bindings. -/
  assignments : o'.assignments = o.assignments
  /-- The same reports. -/
  capacity : o'.capacity = o.capacity

namespace Outbox

theorem Alike.refl (o : Outbox) : o.Alike o := ⟨rfl, rfl⟩

theorem Alike.trans {o o' o'' : Outbox} (h : o.Alike o') (h' : o'.Alike o'') : o.Alike o'' :=
  ⟨h'.assignments.trans h.assignments, h'.capacity.trans h.capacity⟩

end Outbox

/-- An event is no report. -/
theorem Entry.alike_emit (x : Entry) (e : Event) (o : Outbox) : o.Alike (x.emit e o).2 := by
  unfold emit
  split <;> exact ⟨rfl, rfl⟩

namespace Schedule

theorem alike_accept (s : Schedule) (c : Catalog) (task : Submission) (monitor : Monitor) :
    Outbox.Alike {} (s.accept c task monitor).2.2 := by
  unfold accept
  dsimp only
  split
  · exact (Entry.alike_emit _ _ _).trans (Entry.alike_emit _ _ _)
  · exact Entry.alike_emit _ _ _

theorem alike_wakeOne (name : String) (s : Schedule) (o : Outbox) (id : Nat) :
    o.Alike (wakeOne name s o id).2 := by
  unfold wakeOne
  split
  · exact .refl o
  · dsimp only
    split
    · exact Entry.alike_emit _ _ _
    · exact .refl o

theorem alike_wake (s : Schedule) (name : String) : Outbox.Alike {} (s.wake name).2 := by
  unfold wake
  split
  · exact .refl _
  · next waiting _ =>
    exact List.foldlRecOn (motive := fun r : Schedule × Outbox => Outbox.Alike {} r.2)
      waiting.toList _ (.refl _) fun r hr id _ => hr.trans (alike_wakeOne name r.1 r.2 id)

theorem alike_abandonOne (key : WorkerKey) (s : Schedule) (o : Outbox) (id : Nat) :
    o.Alike (abandonOne key s o id).2 := by
  unfold abandonOne
  split
  · exact .refl o
  · dsimp only
    split
    · exact Entry.alike_emit _ _ _
    · exact .refl o

theorem alike_abandon (s : Schedule) (key : WorkerKey) (ids : List Nat) :
    Outbox.Alike {} (s.abandon key ids).2 :=
  List.foldlRecOn (motive := fun r : Schedule × Outbox => Outbox.Alike {} r.2) ids _ (.refl _)
    fun r hr id _ => hr.trans (alike_abandonOne key r.1 r.2 id)

/-- The end of an action binds nothing, and reports the worker that it was bound to. -/
theorem reports_conclude (s : Schedule) (p : Pool) (x : Entry) (events : List Event)
    (last : ActionState) :
    (s.conclude p x events last).2.2.assignments = [] ∧ ∀ key,
      (s.conclude p x events last).2.1.freeOn? key =
        (lastFor key (s.conclude p x events last).2.2.capacity).or (p.freeOn? key) := by
  have halike : Outbox.Alike (releaseBinding p x {}).2 (s.conclude p x events last).2.2 :=
    List.foldlRecOn
      (motive := fun r : Entry × Outbox => Outbox.Alike (releaseBinding p x {}).2 r.2)
      events _ (.refl _) fun r hr e _ => hr.trans (Entry.alike_emit r.1 e r.2)
  rw [halike.assignments, halike.capacity]
  show _ ∧ ∀ key, (releaseBinding p x {}).1.freeOn? key = _
  unfold releaseBinding
  split
  · exact ⟨rfl, fun _ => rfl⟩
  · next key _ =>
    split
    · exact ⟨rfl, fun _ => rfl⟩
    · next r hr =>
      obtain ⟨v, v', hv, -, rfl⟩ := Pool.release?_eq_some_iff.mp hr
      refine ⟨rfl, fun k => ?_⟩
      dsimp only
      rw [List.nil_append, lastFor_singleton]
      rw [Pool.freeOn?_of_insert (p := p) (v := v') rfl]
      split <;> rfl

end Schedule

/-! ## Passes -/

namespace Pass

variable {p q r : Pass}

/-- What a pass reports between two of its states: all that changes, and the last report about a
worker is right. -/
def Reports (p q : Pass) : Prop := ∃ l, q.outbox.capacity = p.outbox.capacity ++ l ∧
  ∀ key, q.pool.freeOn? key = (lastFor key l).or (p.pool.freeOn? key)

theorem reports_of_same (hp : q.pool = p.pool) (ho : q.outbox.capacity = p.outbox.capacity) :
    p.Reports q := ⟨[], by rw [ho, List.append_nil], fun key => by rw [hp]; rfl⟩

theorem Reports.trans (h : p.Reports q) (h' : q.Reports r) : p.Reports r := by
  obtain ⟨l, hl, hq⟩ := h
  obtain ⟨k, hk, hr⟩ := h'
  refine ⟨l ++ k, by rw [hk, hl, List.append_assoc], fun key => ?_⟩
  rw [hr, hq, lastFor_append, Option.or_assoc]

/-- What is bound is reported. -/
theorem reports_bind {x : Candidate} {free : Capacity} {pool : Pool}
    (reserved : p.pool.reserve? x.view.key x.action.id x.implementation.requirement =
      some (free, pool)) : p.Reports (p.bind x free pool) := by
  obtain ⟨v, v', hv, -, rfl, rfl⟩ := Pool.reserve?_eq_some_iff.mp reserved
  unfold bind
  dsimp only
  split
  · exact reports_of_same rfl rfl
  · next e _ =>
    have halike := Entry.alike_emit { e with state := .assigned, binding := some x.view.key }
      (.assigned x.action.id x.view.key x.index) p.outbox
    refine ⟨[(x.view.key, v'.free)], ?_, fun key => ?_⟩
    · dsimp only
      rw [halike.capacity]
    · dsimp only
      rw [Pool.freeOn?_of_insert (p := p.pool) (v := v') rfl, lastFor_singleton]
      split <;> rfl

/-- A step that nothing disturbs reports all that it changes, and nothing will disturb the next. -/
theorem reports_step (policy : Policy) (h : p.disturbances = []) :
    p.Reports (p.step policy).1 ∧ (p.step policy).1.disturbances = [] := by
  have hscored : p.Reports (p.best? policy).1 ∧ (p.best? policy).1.disturbances = [] := by
    rw [best?_of_calm policy h]
    exact ⟨reports_of_same rfl rfl, h⟩
  unfold step
  generalize p.best? policy = r at hscored
  obtain ⟨q, best⟩ := r
  cases best with
  | none => exact hscored
  | some x =>
    dsimp only
    cases hr : q.pool.reserve? x.view.key x.action.id x.implementation.requirement with
    | none =>
      obtain ⟨views, hv⟩ := q.revise_eq x
      dsimp only
      rw [hv]
      exact ⟨hscored.1.trans (reports_of_same rfl rfl), hscored.2⟩
    | some s =>
      refine ⟨hscored.1.trans (reports_bind hr), ?_⟩
      dsimp only
      unfold bind
      dsimp only
      split <;> exact hscored.2

theorem reports_steps (policy : Policy) (n : Nat) (h : p.disturbances = []) :
    p.Reports (steps policy n p) := by
  induction n generalizing p with
  | zero => exact reports_of_same rfl rfl
  | succ n ih =>
    obtain ⟨hstep, hcalm⟩ := reports_step policy h
    unfold steps
    generalize p.step policy = r at hstep hcalm
    obtain ⟨q, goesOn⟩ := r
    cases goesOn with
    | false => exact hstep
    | true => exact hstep.trans (ih hcalm)

/-- What no worker could ever carry out is no report. -/
theorem alike_reportOne (views : List WorkerView) (s : Schedule) (o : Outbox) (id : Nat) :
    o.Alike (reportOne views s o id).2 := by
  unfold reportOne
  split
  · exact .refl o
  · split
    · exact .refl o
    · exact Entry.alike_emit _ _ _

/-- A pass that nothing disturbs reports all that it changes, and its last report about a worker is
right. -/
theorem reports_run (policy : Policy) (h : p.disturbances = []) : p.Reports (p.run policy) := by
  refine (reports_steps policy p.bound h).trans (reports_of_same rfl ?_)
  exact (List.foldlRecOn
    (motive := fun r : Schedule × Outbox => Outbox.Alike (steps policy p.bound p).outbox r.2)
    _ _ (.refl _) fun r hr id _ => hr.trans (alike_reportOne _ r.1 r.2 id)).capacity

end Pass

end TaskGrid
