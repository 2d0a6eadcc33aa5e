import TaskGrid.Proofs.Ledger

/-!
# Withdrawals that are refused

Capacity that is withdrawn is taken from what a worker has free, and then from its total.  Either
may be too little.  Where the first is, nothing happens.  Where only the second is, the withdrawal
is refused as well, but what was free is gone by then.

## When this happens

What is free is part of the total as long as the books of the worker are balanced, and they are
balanced unless more was offered to it than a unit count holds: the sum of the offers saturates
then, while what is released later is added to what is free in full.  So a refused withdrawal
changes something exactly if the worker has free what is withdrawn and has not got it in all
(`Pool.Overdraws`), and it takes an offer beyond the limit to get there.

* `Pool.Takes`: what a withdrawal takes from one worker.
* `Pool.withdraws_reduce`: the four outcomes of a withdrawal.
* `Machine.Course.reduce_refused_eq_iff`: when a refused withdrawal changes nothing, in every run.
-/

namespace TaskGrid

namespace Pool

/-- What is withdrawn is free on the worker, and is not there in all. -/
def Overdraws (p : Pool) (key : WorkerKey) (c : Capacity) : Prop :=
  ∃ v, p.worker? key = some v ∧ v.free.contains c = true ∧ v.total.contains c = false

/-- From one pool to another a worker has as much less free, and as much less in all, and nothing
else changes. -/
structure Takes (p q : Pool) (key : WorkerKey) (free total : Capacity) : Prop where
  /-- The worker has less, is as it was otherwise, and holds the same for actions. -/
  worker : ∃ v u, p.worker? key = some v ∧ q.worker? key = some u ∧
    u = { v with free := u.free, total := u.total } ∧
    (∀ k, (u.free.get k).count + (free.get k).count = (v.free.get k).count) ∧
    ∀ k, (u.total.get k).count + (total.get k).count = (v.total.get k).count
  /-- Other workers are as they were. -/
  others : ∀ {k}, k ≠ key → q.worker? k = p.worker? k

/-- The outcomes of a withdrawal. -/
inductive Withdraws (p : Pool) (key : WorkerKey) (c : Capacity) :
    Except Fault WorkerView × Pool → Prop where
  /-- There is no worker. -/
  | unknown (absent : p.worker? key = none) :
    Withdraws p key c (.error (.unknownResource key.text), p)
  /-- It has too little free. -/
  | short {v : Worker} (s : Shortage) (live : p.worker? key = some v)
      (lacks : v.free.contains c = false) : Withdraws p key c (.error (.capacityUnderflow s), p)
  /-- It has too little in all, and what was free is gone. -/
  | overdrawn {q : Pool} (s : Shortage) (exceeds : p.Overdraws key c)
      (takes : p.Takes q key c .empty) : Withdraws p key c (.error (.capacityUnderflow s), q)
  /-- The capacity is withdrawn. -/
  | made {q : Pool} {u : Worker} (takes : p.Takes q key c c) (left : q.worker? key = some u) :
    Withdraws p key c (.ok (u.view key), q)

variable {p q : Pool} {key : WorkerKey} {c : Capacity} {v : Worker}

/-- One worker is replaced by itself with less. -/
theorem takes_insert {free total less rest : Capacity} (hv : p.worker? key = some v)
    (hfree : ∀ k, (less.get k).count + (free.get k).count = (v.free.get k).count)
    (htotal : ∀ k, (rest.get k).count + (total.get k).count = (v.total.get k).count) :
    p.Takes { p with workers := p.workers.insert key { v with free := less, total := rest } } key
      free total where
  worker := ⟨v, _, hv, SortedMap.get?_insert_self _ _ _, rfl, hfree, htotal⟩
  others hk := SortedMap.get?_insert_of_ne _ _ hk

/-- A withdrawal has one of the four outcomes. -/
theorem withdraws_reduce (p : Pool) (key : WorkerKey) (c : Capacity) :
    p.Withdraws key c (p.reduce key c) := by
  unfold reduce
  cases hv : p.worker? key with
  | none => exact .unknown hv
  | some v =>
    dsimp only
    cases hfree : v.free.subtract c with
    | error s => exact .short s hv (Capacity.not_contains_of_subtract hfree)
    | ok free =>
      have hless := Capacity.count_get_of_subtract hfree
      dsimp only
      cases htotal : v.total.subtract c with
      | error s =>
        refine .overdrawn s ⟨v, hv, Capacity.contains_of_subtract hfree,
          Capacity.not_contains_of_subtract htotal⟩ ?_
        exact takes_insert hv hless fun k => by rw [Capacity.get_empty]; rfl
      | ok total =>
        exact .made (takes_insert hv hless (Capacity.count_get_of_subtract htotal))
          (SortedMap.get?_insert_self _ _ _)

/-- What is taken from an overdrawn worker is not nothing. -/
theorem Takes.ne_of_overdraws {total : Capacity} (h : p.Takes q key c total)
    (hover : p.Overdraws key c) : q ≠ p := by
  rintro rfl
  obtain ⟨v, hv, -, hlacks⟩ := hover
  obtain ⟨v', u, hv', hu, -, hfree, -⟩ := h.worker
  obtain rfl : v = v' := Option.some_inj.mp (hv.symm.trans hv')
  obtain rfl : v = u := Option.some_inj.mp (hv.symm.trans hu)
  -- nothing is taken in any category, and nothing is always there
  have hnone : v.total.contains c = true := Capacity.contains_iff.mpr fun k => by
    have hk := hfree k
    rw [Units.le_iff]
    omega
  rw [hlacks] at hnone
  cases hnone

/-- Where the books are balanced, nothing is overdrawn. -/
theorem not_overdraws_of_balanced (h : ∀ v, p.worker? key = some v → v.Balanced) :
    ¬ p.Overdraws key c := by
  rintro ⟨v, hv, hfree, htotal⟩
  rw [Capacity.not_contains_of_le (h v hv).free_le htotal] at hfree
  cases hfree

end Pool

namespace Machine

variable {rule : Conduct} {policy : Policy} {localNodes : List String} {withholds : Bool}
  {limit : Nat} {t : List Moment} {m : Machine}

/-- At every step of every course, whatever is done to the pool, a withdrawal that succeeds takes
what is withdrawn from what is free and from the total of its worker, and changes nothing else.  One
that is refused changes nothing, unless it overdraws: then it takes from what is free all the same.
No withdrawal overdraws a worker to which no more was offered than a unit count holds. -/
theorem Course.reduce_refused_eq_iff
    (h : Course rule (World.fresh policy localNodes withholds limit) t m) (key : WorkerKey)
    (c : Capacity) :
    (∀ {view q}, m.world.pool.reduce key c = (.ok view, q) →
      m.world.pool.Takes q key c c ∧ q.view? key = some view) ∧
    (∀ {f q}, m.world.pool.reduce key c = (.error f, q) →
      (q = m.world.pool ↔ ¬ m.world.pool.Overdraws key c) ∧
        (m.world.pool.Overdraws key c → m.world.pool.Takes q key c .empty)) ∧
    ((∀ v, m.world.pool.worker? key = some v → ∀ k, offeredTo t v.seq k ≤ Units.limit) →
      ¬ m.world.pool.Overdraws key c) := by
  have hw := m.world.pool.withdraws_reduce key c
  refine ⟨fun {view q} hr => ?_, fun {f q} hr => ?_, fun hfit => ?_⟩
  · rw [hr] at hw
    cases hw with
    | made takes left => exact ⟨takes, by rw [Pool.view?, left]; rfl⟩
  · rw [hr] at hw
    cases hw with
    | unknown absent =>
      have hnot : ¬ m.world.pool.Overdraws key c := fun ⟨v, hv, _⟩ => by
        rw [absent] at hv
        cases hv
      exact ⟨iff_of_true rfl hnot, fun hover => absurd hover hnot⟩
    | short s live lacks =>
      have hnot : ¬ m.world.pool.Overdraws key c := fun ⟨v, hv, hfree, _⟩ => by
        rw [live] at hv
        rw [← Option.some_inj.mp hv, lacks] at hfree
        cases hfree
      exact ⟨iff_of_true rfl hnot, fun hover => absurd hover hnot⟩
    | overdrawn s exceeds takes =>
      exact ⟨iff_of_false (takes.ne_of_overdraws exceeds) (not_not_intro exceeds), fun _ => takes⟩
  · exact Pool.not_overdraws_of_balanced fun v hv => (h.booksKept key v hv (hfit v hv)).1

/-! ### A worker that was offered more than a unit count holds -/

/-- As many units as a unit count holds are offered to a worker. -/
def endowing : Machine :=
  asked (.fresh .fifo [] false 8) 0 (.addWorker (.permanent "n") (.cpus ⟨4294967295, by omega⟩)
    default)

/-- A task takes one of them. -/
def tapping : Machine :=
  asked (endowing.advance 5).world 1 (.submit (.single (.cpus 1) "h") .silent)

/-- One more is offered, so that as many are free again. -/
def overflowing : Machine :=
  asked (tapping.advance 8).world 2 (.addWorker (.permanent "n") (.cpus 1) default)

/-- All that are free are withdrawn. -/
def draining : Machine :=
  asked (overflowing.advance 5).world 3
    (.reduceWorker (.permanent "n") (.cpus ⟨4294967295, by omega⟩))

/-- The task finishes and gives its unit back. -/
def returning : Machine :=
  asked (draining.advance 3).world 4 (.complete 1 [])

/-- The moments of the grid until then. -/
def returned : List Moment :=
  moments 6 returning ++ (moments 3 draining ++ (moments 5 overflowing ++ (moments 8 tapping ++
    (moments 5 endowing ++ []))))

theorem course_returning :
    Course (.quiet fun _ => True) (.fresh .fifo [] false 8) returned
      ⟨(returning.advance 6).world, []⟩ :=
  ((((Course.start.call 0 5 trivial (by decide +kernel)).call 1 8 trivial
    (by decide +kernel)).call 2 5 trivial (by decide +kernel)).call 3 3 trivial
    (by decide +kernel)).call 4 6 trivial (by decide +kernel)

/-- The unit is free, and there is none in all.  To withdraw it is refused, and the unit is gone. -/
theorem exists_course_reduce_refused_ne : ∃ t w,
    Course (.quiet fun _ => True) (.fresh .fifo [] false 8) t ⟨w, []⟩ ∧
      (w.pool.reduce (.permanent "n") (.cpus 1)).1 = .error (.capacityUnderflow ⟨.cpu, 0, 1⟩) ∧
      (w.pool.worker? (.permanent "n")).map (fun v => (v.free, v.total)) =
        some (.cpus 1, .empty) ∧
      ((w.pool.reduce (.permanent "n") (.cpus 1)).2.worker? (.permanent "n")).map
        (fun v => (v.free, v.total)) = some (.empty, .empty) :=
  ⟨_, _, course_returning, by decide +kernel, by decide +kernel, by decide +kernel⟩

/-- The unit is overdrawn, and what is refused takes it. -/
theorem takes_returning :
    let p := (returning.advance 6).world.pool
    p.Overdraws (.permanent "n") (.cpus 1) ∧
      p.Takes (p.reduce (.permanent "n") (.cpus 1)).2 (.permanent "n") (.cpus 1) .empty ∧
      Units.limit < offeredTo returned 0 .cpu := by
  obtain ⟨v, hv⟩ : ∃ v, (returning.advance 6).world.pool.worker? (.permanent "n") = some v :=
    Option.isSome_iff_exists.mp (by decide +kernel)
  have hparts : ((returning.advance 6).world.pool.worker? (.permanent "n")).map
      (fun v => (v.free, v.total)) = some (.cpus 1, .empty) := by
    decide +kernel
  rw [hv, Option.map_some, Option.some_inj] at hparts
  obtain ⟨hfree, htotal⟩ := Prod.mk.inj hparts
  have hover : (returning.advance 6).world.pool.Overdraws (.permanent "n") (.cpus 1) :=
    ⟨v, hv, by rw [hfree]; decide, by rw [htotal]; decide⟩
  have hrefused : ((returning.advance 6).world.pool.reduce (.permanent "n") (.cpus 1)).1 =
      .error (.capacityUnderflow ⟨.cpu, 0, 1⟩) := by
    decide +kernel
  exact ⟨hover, ((course_returning.reduce_refused_eq_iff _ _).2.1
    (Prod.ext hrefused rfl)).2 hover, by decide +kernel⟩

end Machine

end TaskGrid
