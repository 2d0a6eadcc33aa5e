import Mathlib.Data.List.Basic
import TaskGrid.Schedule.Pass
import TaskGrid.Proofs.Balance

/-!
# What the pool does to its workers

Every operation of the pool replaces one worker or takes one out, and leaves all others as they
were.  Each is described here by look-ups, so that an argument about the workers of a grid never
opens the pool.

* `Pool.worker?_of_insert`, `Pool.worker?_of_erase`: one worker replaced, one worker gone.
* `Pool.reserve?_eq_some_iff`, `Pool.release?_eq_some_iff`, ...: the operations, by look-ups.
* `Pool.reduce_cases`: what is left of a worker when capacity is withdrawn.
-/

namespace TaskGrid

namespace Pool

variable {p q : Pool} {key : WorkerKey} {w : Worker}

/-- One worker was replaced. -/
theorem worker?_of_insert (h : q.workers = p.workers.insert key w) (k : WorkerKey) :
    q.worker? k = if k = key then some w else p.worker? k := by
  rw [worker?, h, SortedMap.get?_insert]
  rfl

/-- One worker is gone. -/
theorem worker?_of_erase (h : q.workers = p.workers.erase key) (k : WorkerKey) :
    q.worker? k = if k = key then none else p.worker? k := by
  rw [worker?, h, SortedMap.get?_erase]
  rfl

/-! ## Offers -/

/-- The worker that an offer under a key goes to, as it was before. -/
def offeredWorker (p : Pool) (key : WorkerKey) (adaptor : Adaptor) : Worker :=
  (p.worker? key).getD { seq := p.nextSeq, adaptor }

theorem workers_add (p : Pool) (key : WorkerKey) (offered : Capacity) (adaptor : Adaptor) :
    (p.add key offered adaptor).2.workers = p.workers.insert key
      ((p.offeredWorker key adaptor).offer (p.withholds && p.isLocal key.name) offered) := rfl

theorem nextSeq_add (p : Pool) (key : WorkerKey) (offered : Capacity) (adaptor : Adaptor) :
    (p.add key offered adaptor).2.nextSeq =
      if p.workers.contains key then p.nextSeq else p.nextSeq + 1 := rfl

/-- An offer goes to the registered worker, or else to one that holds nothing yet. -/
theorem offeredWorker_cases (p : Pool) (key : WorkerKey) (offered : Capacity) (adaptor : Adaptor) :
    (∃ w, p.worker? key = some w ∧ p.offeredWorker key adaptor = w ∧
        (p.add key offered adaptor).2.nextSeq = p.nextSeq) ∨
      p.worker? key = none ∧ p.offeredWorker key adaptor = { seq := p.nextSeq, adaptor } ∧
        (p.add key offered adaptor).2.nextSeq = p.nextSeq + 1 := by
  rw [nextSeq_add]
  cases hw : p.worker? key with
  | none =>
    refine .inr ⟨rfl, by rw [offeredWorker, hw, Option.getD_none], if_neg ?_⟩
    rw [SortedMap.contains, show p.workers.get? key = none from hw]
    exact Bool.false_ne_true
  | some w =>
    refine .inl ⟨w, rfl, by rw [offeredWorker, hw, Option.getD_some], if_pos ?_⟩
    rw [SortedMap.contains, show p.workers.get? key = some w from hw]
    rfl

/-! ## Reservations -/

theorem reserve?_eq_some_iff {id : Nat} {need free : Capacity} :
    p.reserve? key id need = some (free, q) ↔ ∃ w w', p.worker? key = some w ∧
      w.reserve? id need = some w' ∧ free = w'.free ∧
      q = { p with workers := p.workers.insert key w' } := by
  unfold reserve?
  simp only [Option.bind_eq_some_iff, Option.map_eq_some_iff, Prod.mk.injEq, exists_and_left,
    eq_comm (a := free), eq_comm (a := q)]

theorem release?_eq_some_iff {id : Nat} {r : Released} :
    p.release? key id = some r ↔ ∃ w w', p.worker? key = some w ∧ w.release? id = some w' ∧
      r = { pool := { p with workers := p.workers.insert key w' }, free := w'.free
            drained := if w'.isDrained then some w'.seq else none } := by
  unfold release?
  simp only [Option.bind_eq_some_iff, Option.map_eq_some_iff, exists_and_left, eq_comm (a := r)]

/-- Nothing is released exactly where nothing is held. -/
theorem release?_eq_none_iff {id : Nat} :
    p.release? key id = none ↔ ∀ w, p.worker? key = some w → w.reservations.get? id = none := by
  unfold release?
  cases p.worker? key <;> simp [Worker.release?_eq_none_iff]

/-! ## Withdrawals -/

/-- A withdrawal leaves the pool as it is, or it takes from what a worker has free and, unless that
is refused, from its total. -/
theorem reduce_cases (p : Pool) (key : WorkerKey) (c : Capacity) :
    (p.reduce key c).2 = p ∨ ∃ w free total, p.worker? key = some w ∧
      w.free.subtract c = .ok free ∧
      (w.total.subtract c = .ok total ∨ (∃ s, w.total.subtract c = .error s) ∧ total = w.total) ∧
      (p.reduce key c).2 =
        { p with workers := p.workers.insert key { w with free, total } } := by
  unfold reduce
  cases hw : p.worker? key with
  | none => exact .inl rfl
  | some w =>
    dsimp only
    cases hf : w.free.subtract c with
    | error s => exact .inl rfl
    | ok free =>
      dsimp only
      cases ht : w.total.subtract c with
      | error s => exact .inr ⟨w, free, w.total, rfl, hf, .inr ⟨⟨s, ht⟩, rfl⟩, rfl⟩
      | ok total => exact .inr ⟨w, free, total, rfl, hf, .inl ht, rfl⟩

/-! ## Departures -/

theorem workers_depart (p : Pool) (c : Catalog) (key : WorkerKey) (w : Worker) (forced : Bool) :
    (p.depart c key w forced).pool.workers = p.workers.erase key := rfl

theorem retire?_eq_some_iff {c : Catalog} {seq : Nat} {d : Departure} :
    p.retire? c key seq = some d ↔
      ∃ w, p.worker? key = some w ∧ w.seq = seq ∧ d = p.depart c key w false := by
  unfold retire?
  simp only [Option.bind_eq_some_iff, Option.ite_none_right_eq_some, Option.some.injEq,
    eq_comm (a := d)]

theorem lose?_eq_some_iff {c : Catalog} {d : Departure} :
    p.lose? c key = some d ↔ ∃ w, p.worker? key = some w ∧ d = p.depart c key w true := by
  unfold lose?
  simp only [Option.map_eq_some_iff, eq_comm (a := d)]

/-- A worker that is asked to leave accepts nothing more. -/
def leaving (w : Worker) (hook : Option RemovalHook) : Worker :=
  { w with removing := true, hooks := w.hooks ++ hook.toList }

theorem requestRemoval?_eq_left_iff {c : Catalog} {hook : Option RemovalHook} {d : Departure} :
    p.requestRemoval? c key hook = some (.left d) ↔ ∃ w, p.worker? key = some w ∧
      w.reservations.isEmpty = true ∧ d = p.depart c key (leaving w hook) false := by
  unfold requestRemoval?
  cases p.worker? key with
  | none => simp
  | some w =>
    simp only [Option.map_some, Option.some.injEq, exists_eq_left']
    cases w.reservations.isEmpty <;> simp [leaving, eq_comm]

theorem requestRemoval?_eq_draining_iff {c : Catalog} {hook : Option RemovalHook} {n : Nat} :
    p.requestRemoval? c key hook = some (.draining n q) ↔ ∃ w, p.worker? key = some w ∧
      w.reservations.isEmpty = false ∧ n = w.reservations.size ∧
      q = { p with workers := p.workers.insert key (leaving w hook) } := by
  unfold requestRemoval?
  cases p.worker? key with
  | none => simp
  | some w =>
    simp only [Option.map_some, Option.some.injEq, exists_eq_left']
    cases w.reservations.isEmpty <;> simp [leaving, eq_comm]

/-! ## Views -/

theorem mem_views {v : WorkerView} :
    v ∈ p.views ↔ ∃ w, p.worker? v.key = some w ∧ v = w.view v.key := by
  unfold views
  rw [(List.mergeSort_perm _ _).mem_iff, List.mem_map]
  constructor
  · rintro ⟨⟨k, w⟩, he, rfl⟩
    exact ⟨w, SortedMap.mem_entries_iff.mp he, rfl⟩
  · rintro ⟨w, hw, hv⟩
    exact ⟨(v.key, w), SortedMap.mem_entries_iff.mpr hw, hv.symm⟩

end Pool

/-- The workers that may accept actions are those that were not asked to leave. -/
theorem Pass.mem_accepting {p : Pool} {v : WorkerView} :
    v ∈ accepting p ↔ ∃ w, p.worker? v.key = some w ∧ w.removing = false ∧ v = w.view v.key := by
  unfold accepting
  rw [List.mem_filter, Pool.mem_views, Bool.not_eq_true']
  constructor
  · rintro ⟨⟨w, hw, hv⟩, hr⟩
    rw [hv] at hr
    exact ⟨w, hw, hr, hv⟩
  · rintro ⟨w, hw, hr, hv⟩
    refine ⟨⟨w, hw, hv⟩, ?_⟩
    rw [hv]
    exact hr

end TaskGrid
