import TaskGrid.Proofs.Calls
import TaskGrid.Proofs.Holdings

/-!
# No capacity is created or lost

Between calls the table of actions and the pool say the same about every binding, and on every
worker what is free and what is reserved make up the total.  The second half needs that the offers
to a worker do not sum up beyond the limit of a unit count, where sums saturate, and holds at every
step of every course; the first half needs that nobody changes the pool behind the scheduler.

* `Pool.KeepsBooks`: what everything but an offer does to the books of the workers.
* `Machine.Course.booksKept`: the books of every worker, along every course.
* `World.Consistent`: what table and pool agree on between calls.
* `Machine.Course.consistent_and_balanced`: both halves, along every course.
-/

namespace TaskGrid

open Item (Plain)

/-! ## The books of the pool -/

/-- From one pool to another, balanced books stay balanced and no total grows. -/
def Pool.KeepsBooks (p q : Pool) : Prop :=
  ∀ key u, q.worker? key = some u → ∃ v, p.worker? key = some v ∧ u.seq = v.seq ∧
    (v.Balanced → u.Balanced) ∧ ∀ c, u.total.get c ≤ v.total.get c

namespace Pool

variable {p q r : Pool} {key : WorkerKey} {v u : Worker}

theorem KeepsBooks.refl (p : Pool) : p.KeepsBooks p := fun _ u hu =>
  ⟨u, hu, rfl, fun hb => hb, fun _ => Nat.le_refl _⟩

theorem KeepsBooks.trans (h : p.KeepsBooks q) (h' : q.KeepsBooks r) : p.KeepsBooks r := by
  intro k x hx
  obtain ⟨y, hy, hs, hb, ht⟩ := h' k x hx
  obtain ⟨z, hz, hs', hb', ht'⟩ := h k y hy
  exact ⟨z, hz, hs.trans hs', fun hbal => hb (hb' hbal), fun c => Nat.le_trans (ht c) (ht' c)⟩

/-- One worker is replaced, with its books still balanced. -/
theorem keepsBooks_of_insert (hv : p.worker? key = some v) (hq : q.workers = p.workers.insert key u)
    (hseq : u.seq = v.seq) (hbal : v.Balanced → u.Balanced)
    (htot : ∀ c, u.total.get c ≤ v.total.get c) : p.KeepsBooks q := by
  intro k x hx
  rw [worker?_of_insert hq] at hx
  split at hx
  · next hk =>
    rw [← Option.some_inj.mp hx]
    exact ⟨v, hk ▸ hv, hseq, hbal, htot⟩
  · exact KeepsBooks.refl p k x hx

theorem keepsBooks_of_erase (hq : q.workers = p.workers.erase key) : p.KeepsBooks q := by
  intro k x hx
  rw [worker?_of_erase hq] at hx
  split at hx
  · cases hx
  · exact KeepsBooks.refl p k x hx

theorem keepsBooks_reduce (p : Pool) (key : WorkerKey) (c : Capacity) :
    p.KeepsBooks (p.reduce key c).2 := by
  rcases reduce_cases p key c with h | ⟨v, free, total, hv, hf, ht, h⟩
  · rw [h]
    exact .refl p
  · rw [h]
    refine keepsBooks_of_insert (u := { v with free, total }) hv rfl rfl ?_ ?_
    · intro hbal
      rcases ht with ht | ⟨⟨s, hs⟩, -⟩
      · exact Worker.balanced_reduce hbal hf ht
      · -- what is free is part of the total
        have hc : v.total.contains c = true := Capacity.contains_iff.mpr fun k =>
          Nat.le_trans (Capacity.contains_iff.mp (Capacity.contains_of_subtract hf) k)
            (hbal.free_le k)
        rw [Capacity.subtract_of_contains hc] at hs
        cases hs
    · intro k
      rcases ht with ht | ⟨-, rfl⟩
      · have hle := Capacity.count_get_of_subtract ht k
        show (total.get k).count ≤ (v.total.get k).count
        omega
      · exact Nat.le_refl _

theorem keepsBooks_draining {c : Catalog} {hook : Option RemovalHook} {n : Nat}
    (h : p.requestRemoval? c key hook = some (.draining n q)) : p.KeepsBooks q := by
  obtain ⟨v, hv, -, -, rfl⟩ := requestRemoval?_eq_draining_iff.mp h
  exact keepsBooks_of_insert (u := leaving v _) hv rfl rfl (fun hbal => hbal)
    fun _ => Nat.le_refl _

theorem keepsBooks_left {c : Catalog} {hook : Option RemovalHook} {d : Departure}
    (h : p.requestRemoval? c key hook = some (.left d)) : p.KeepsBooks d.pool := by
  obtain ⟨v, -, -, rfl⟩ := requestRemoval?_eq_left_iff.mp h
  exact keepsBooks_of_erase rfl

theorem keepsBooks_lose {c : Catalog} {d : Departure} (h : p.lose? c key = some d) :
    p.KeepsBooks d.pool := by
  obtain ⟨v, -, rfl⟩ := lose?_eq_some_iff.mp h
  exact keepsBooks_of_erase rfl

theorem keepsBooks_retire {c : Catalog} {seq : Nat} {d : Departure}
    (h : p.retire? c key seq = some d) : p.KeepsBooks d.pool := by
  obtain ⟨v, -, -, rfl⟩ := retire?_eq_some_iff.mp h
  exact keepsBooks_of_erase rfl

/-- What is done to the pool alone keeps the books, unless it offers capacity. -/
theorem keepsBooks_perform (p : Pool) (c : Catalog) (o : Operation) :
    p.KeepsBooks (p.perform c o).pool ∨ ∃ key offered adaptor, o = .add key offered adaptor := by
  cases o with
  | add key offered adaptor => exact .inr ⟨key, offered, adaptor, rfl⟩
  | reduce key amount =>
    have h := p.keepsBooks_reduce key amount
    unfold perform
    dsimp only
    generalize p.reduce key amount = r at h ⊢
    obtain ⟨f | v, q⟩ := r <;> exact .inl h
  | remove key hook =>
    unfold perform
    dsimp only
    cases h : p.requestRemoval? c key hook with
    | none => exact .inl (.refl p)
    | some r =>
      cases r with
      | left d => exact .inl (keepsBooks_left h)
      | draining n q => exact .inl (keepsBooks_draining h)
  | lose key =>
    unfold perform
    dsimp only
    cases h : p.lose? c key with
    | none => exact .inl (.refl p)
    | some d => exact .inl (keepsBooks_lose h)
  | look key => exact .inl (.refl p)

end Pool

namespace Schedule

variable {s t : Schedule} {p q : Pool} {x : Standing} {key : WorkerKey} {i : Implementation}

theorem Binds.keepsBooks (hb : s.Binds p x key i t q)
    (hnew : ∀ {k v}, p.worker? k = some v → v.reservations.get? x.action.id = none) :
    p.KeepsBooks q := by
  obtain ⟨v, v', hv, hr, hq⟩ := hb.reserved
  obtain ⟨-, free, -, hv'⟩ := Worker.reserve?_eq_some_iff.mp hr
  rw [hq]
  refine Pool.keepsBooks_of_insert hv rfl (by rw [hv'])
    (fun hbal => Worker.balanced_reserve hbal (hnew hv) hr) ?_
  intro c
  rw [hv']
  exact Nat.le_refl _

/-- Nothing is reserved for the actions that stay ready when one is bound. -/
theorem Binds.unheld (hb : s.Binds p x key i t q)
    (hu : ∀ {id}, id ∈ s.ready → ∀ {k v}, p.worker? k = some v → v.reservations.get? id = none)
    {id : Nat} (hid : id ∈ t.ready) {k : WorkerKey} {u : Worker} (h : q.worker? k = some u) :
    u.reservations.get? id = none := by
  rw [hb.ready, SortedSet.mem_erase] at hid
  obtain ⟨v, hv, -, -, hres⟩ := hb.back h
  rw [hres, if_neg fun he => hid.2 he.2]
  exact hu hid.1 hv

end Schedule

theorem Schedule.keepsBooks_releaseBinding (p : Pool) (x : Entry) :
    p.KeepsBooks (releaseBinding p x {}).1 := by
  rcases releaseBinding_cases p x with ⟨hp, -, -⟩ | ⟨key, v, v', -, hv, hr, hp, -⟩
  · rw [hp]
    exact .refl p
  · obtain ⟨held, -, hv'⟩ := Worker.release?_eq_some_iff.mp hr
    rw [hp]
    refine Pool.keepsBooks_of_insert hv rfl (by rw [hv'])
      (fun hbal => Worker.balanced_release hbal hr) ?_
    intro c
    rw [hv']
    exact Nat.le_refl _

namespace World

variable {w : World}

/-- A pass that nothing disturbs only binds. -/
theorem keepsBooks_passed (hs : w.schedule.Sound)
    (hu : ∀ {id}, id ∈ w.schedule.ready → ∀ {key v}, w.pool.worker? key = some v →
      v.reservations.get? id = none)
    (hcalm : w.disturbances = []) : w.pool.KeepsBooks w.passed.pool := by
  have hsteady := Pass.steady_start hs hu w.catalog w.scored
  rw [← hcalm] at hsteady
  refine (Pass.run_preserves w.policy hsteady
    (P := fun s p => (∀ {id}, id ∈ s.ready → ∀ {key v}, p.worker? key = some v →
      v.reservations.get? id = none) ∧ w.pool.KeepsBooks p) ⟨hu, .refl _⟩ ?_ ?_).2.2
  · intro s p x key i t q hsound h hb
    have hready : x.action.id ∈ s.ready := hsound.ready_iff.mpr ⟨x, hb.live, hb.state⟩
    exact ⟨hb.unheld h.1, h.2.trans (hb.keepsBooks (h.1 hready))⟩
  · exact fun h hre => ⟨fun hid => h.1 (hre.ready ▸ hid), h.2⟩

/-- Every item keeps the books, unless it offers capacity. -/
theorem keepsBooks_or_offers (hs : w.schedule.Sound)
    (hu : ∀ {id}, id ∈ w.schedule.ready → ∀ {key v}, w.pool.worker? key = some v →
      v.reservations.get? id = none)
    (hcalm : w.disturbances = []) (i : Item) :
    w.pool.KeepsBooks (w.carryOut i).1.pool ∨ ∃ key offered adaptor,
      Moment.offer? ⟨w, i⟩ = some (key, offered) ∧
        (w.carryOut i).1.pool = (w.pool.add key offered adaptor).2 := by
  have hdone := Moment.doneBy_deed ⟨w, i⟩
  have hdoes := w.does_carryOut i
  generalize w.carryOut i = e at hdoes ⊢
  generalize Moment.deed ⟨w, i⟩ = d at hdone hdoes
  cases hdoes with
  | offer key offered adaptor _ => exact .inr ⟨key, offered, adaptor, hdone, rfl⟩
  | idle still _ _ => exact .inl (still.pool ▸ .refl _)
  | deliver m e => exact .inl ((deliver_frame w m e).2.1 ▸ .refl _)
  | tellHook hook r => exact .inl ((tellHook_frame w hook r).2.1 ▸ .refl _)
  | pass token => exact .inl (keepsBooks_passed hs hu hcalm)
  | wake name => exact .inl (pool_wake w name ▸ .refl _)
  | conclude ending _ _ _ => exact .inl (Schedule.keepsBooks_releaseBinding w.pool _)
  | reduce key c _ => exact .inl (Pool.keepsBooks_reduce w.pool key c)
  | remove key hook _ =>
    refine .inl ?_
    unfold removeWorker
    dsimp only
    split
    · exact .refl _
    · next h => exact Pool.keepsBooks_draining h
    · next h => exact Pool.keepsBooks_left h
  | lose lost _ => exact .inl (Pool.keepsBooks_lose lost)
  | retire key seq =>
    refine .inl ?_
    unfold World.retire
    split
    · exact .refl _
    · next h => exact Pool.keepsBooks_retire h
  | pool token o =>
    rcases w.pool.keepsBooks_perform w.catalog o with h | ⟨key, offered, adaptor, rfl⟩
    · exact .inl h
    · obtain ⟨token', hi⟩ := hdone
      refine .inr ⟨key, offered, adaptor, ?_, rfl⟩
      unfold Moment.offer?
      rw [hi]
  | _ => exact .inl (.refl _)

end World

/-! ## Along a course -/

/-- The books of every worker whose offers stay within the limit, in the light of the moments. -/
def BooksKept (t : List Moment) (p : Pool) : Prop :=
  ∀ key v, p.worker? key = some v → (∀ c, offeredTo t v.seq c ≤ Units.limit) →
    v.Balanced ∧ ∀ c, (v.total.get c).count ≤ offeredTo t v.seq c

namespace BooksKept

variable {t : List Moment} {p q : Pool}

/-- Books that are kept stay kept when time goes on. -/
theorem keepsBooks (h : BooksKept t p) (hq : p.KeepsBooks q) (m : Moment) :
    BooksKept (m :: t) q := by
  intro key u hu hfit
  obtain ⟨v, hv, hseq, hbal, htot⟩ := hq key u hu
  rw [hseq] at hfit ⊢
  simp only [offeredTo_cons] at hfit ⊢
  obtain ⟨hb, hle⟩ := h key v hv fun c => Nat.le_trans (Nat.le_add_left _ _) (hfit c)
  refine ⟨hbal hb, ?_⟩
  intro c
  exact Nat.le_trans (htot c) (Nat.le_trans (hle c) (Nat.le_add_left _ _))

/-- An offer is booked with the worker it goes to. -/
theorem offer {w : World} {i : Item} {key : WorkerKey} {offered : Capacity} (adaptor : Adaptor)
    (h : BooksKept t w.pool) (ho : Moment.offer? ⟨w, i⟩ = some (key, offered)) :
    BooksKept (⟨w, i⟩ :: t) (w.pool.add key offered adaptor).2 := by
  have hbooked (c : Category) : Moment.offeredTo ⟨w, i⟩ (w.pool.offeredSeq key) c =
      (offered.get c).count := by
    simp only [Moment.offeredTo, ho, if_pos]
  intro k u hu hfit
  rw [Pool.worker?_of_insert (Pool.workers_add w.pool key offered adaptor)] at hu
  split at hu
  · have hold : (w.pool.offeredWorker key adaptor).seq = w.pool.offeredSeq key ∧
        ((∀ c, offeredTo t (w.pool.offeredSeq key) c ≤ Units.limit) →
          (w.pool.offeredWorker key adaptor).Balanced ∧ ∀ c,
            ((w.pool.offeredWorker key adaptor).total.get c).count ≤
              offeredTo t (w.pool.offeredSeq key) c) := by
      unfold Pool.offeredSeq
      rcases Pool.offeredWorker_cases w.pool key offered adaptor with ⟨v, hv, he, -⟩ | ⟨hv, he, -⟩
      · rw [he, hv]
        exact ⟨rfl, h key v hv⟩
      · rw [he, hv]
        exact ⟨rfl, fun _ => ⟨Worker.balanced_new _ _, fun c => by simp⟩⟩
    generalize w.pool.offeredWorker key adaptor = v at hu hold
    obtain ⟨hseq, hkept⟩ := hold
    rw [← Option.some_inj.mp hu, Worker.seq_offer, hseq] at hfit ⊢
    simp only [offeredTo_cons, hbooked] at hfit ⊢
    obtain ⟨hbal, htot⟩ := hkept fun c => Nat.le_trans (Nat.le_add_left _ _) (hfit c)
    have hroom (c : Category) : (v.total.get c).count + (offered.get c).count ≤ Units.limit := by
      have h₁ := htot c
      have h₂ := hfit c
      omega
    refine ⟨Worker.balanced_offer hbal _ hroom, ?_⟩
    intro c
    have h₁ := htot c
    have h₂ := v.count_added_le (w.pool.withholds && w.pool.isLocal key.name) offered c
    rw [Worker.total_offer, Capacity.count_get_merge]
    omega
  · exact h.keepsBooks (.refl _) ⟨w, i⟩ k u hu hfit

end BooksKept

namespace Machine

variable {rule : Conduct} {policy : Policy} {localNodes : List String} {withholds : Bool}
  {limit : Nat} {t : List Moment} {m : Machine}

/-- Along every course, whatever is done to the pool, the books are kept. -/
theorem Course.booksKept (h : Course rule (World.fresh policy localNodes withholds limit) t m) :
    BooksKept t m.world.pool := by
  induction h with
  | start => exact fun key v hv => by cases hv
  | ask _ _ _ ih => exact ih
  | answer _ _ _ ih => exact ih
  | @item t w i rest hc ih =>
    obtain ⟨l, hl⟩ := hc.run
    have hcovers : Covers w.schedule w.pool := Run.covers (m := ⟨w, i :: rest⟩) hl
    rw [step_cons]
    rcases World.keepsBooks_or_offers hcovers.sound hcovers.unheld (hc.calm rfl) i with
      hk | ⟨key, offered, adaptor, ho, hp⟩
    · exact BooksKept.keepsBooks ih hk ⟨w, i⟩
    · show BooksKept _ (w.carryOut i).1.pool
      rw [hp]
      exact BooksKept.offer adaptor ih ho

end Machine

/-! ## Between calls -/

/-- What the table of actions and the pool agree on. -/
structure World.Consistent (w : World) : Prop where
  /-- A live action is bound to a worker exactly if it is assigned or running and the worker is
  registered and holds a reservation for it. -/
  bound_iff : ∀ id x, w.schedule.actions.get? id = some x → ∀ key, x.binding = some key ↔
    (x.state = .assigned ∨ x.state = .running) ∧
      ∃ v, w.pool.worker? key = some v ∧ v.reservations.contains id = true
  /-- Nothing is reserved for an action on two workers. -/
  unique : ∀ id k k' v v', w.pool.worker? k = some v → w.pool.worker? k' = some v' →
    v.reservations.contains id = true → v'.reservations.contains id = true → k = k'
  /-- What is reserved is reserved for a live action, and is what one of its implementations
  requires. -/
  required : ∀ key v id need, w.pool.worker? key = some v → v.reservations.get? id = some need →
    ∃ x, w.schedule.actions.get? id = some x ∧
      ∃ i ∈ x.action.task.implementations, i.requirement = need

theorem ActionState.holdsCapacity_iff {x : ActionState} :
    x.holdsCapacity = true ↔ x = .assigned ∨ x = .running := by
  cases x <;> simp [holdsCapacity]

/-- Where nothing is owed, table and pool are consistent. -/
theorem Agrees.consistent {w : World} (h : Agrees w.schedule w.pool []) : w.Consistent where
  bound_iff id x hx key := by
    have hst : w.schedule.standing? id = some x.standing :=
      Schedule.standing?_eq_some_iff.mpr ⟨x, hx, rfl⟩
    constructor
    · intro hb
      refine ⟨ActionState.holdsCapacity_iff.mp ((h.sound.bound_iff hst).mp ?_), ?_⟩
      · rw [show x.standing.binding = some key from hb]
        rfl
      · rcases h.bound hst hb with ⟨v, need, hv, hn⟩ | ⟨ids, hj, -⟩
        · exact ⟨v, hv, SortedMap.contains_iff.mpr ⟨need, hn⟩⟩
        · cases hj
    · rintro ⟨-, v, hv, hc⟩
      obtain ⟨need, hn⟩ := SortedMap.contains_iff.mp hc
      obtain ⟨y, hy, hb, -⟩ := h.held hv hn
      rw [hst] at hy
      rw [← Option.some_inj.mp hy] at hb
      exact hb
  unique id k k' v v' hv hv' hc hc' := by
    obtain ⟨need, hn⟩ := SortedMap.contains_iff.mp hc
    obtain ⟨need', hn'⟩ := SortedMap.contains_iff.mp hc'
    obtain ⟨x, hx, hb, -⟩ := h.held hv hn
    obtain ⟨y, hy, hb', -⟩ := h.held hv' hn'
    rw [hx] at hy
    rw [← Option.some_inj.mp hy, hb] at hb'
    exact Option.some_inj.mp hb'
  required key v id need hv hn := by
    obtain ⟨y, hy, -, hi⟩ := h.held hv hn
    obtain ⟨x, hx, rfl⟩ := Schedule.standing?_eq_some_iff.mp hy
    exact ⟨x, hx, hi⟩

namespace Machine

/-- Between calls, whatever was asked of the scheduler, the agent and the catalog, table and pool
are consistent; and what is free and what is reserved on a worker make up its total in every
category, unless more was offered to it than a unit count holds. -/
theorem Course.consistent_and_balanced {rule : Conduct} (hrule : rule.SparesPool) {policy : Policy}
    {localNodes : List String} {withholds : Bool} {limit : Nat} {t : List Moment} {w : World}
    (h : Course rule (World.fresh policy localNodes withholds limit) t ⟨w, []⟩) :
    w.Consistent ∧ ∀ key v, w.pool.worker? key = some v →
      (∀ c, offeredTo t v.seq c ≤ Units.limit) → v.Balanced :=
  ⟨(h.inAgreement hrule).agrees.consistent, fun key v hv hfit =>
    (h.booksKept key v hv hfit).1⟩

/-! ### A grid with one bound action -/

/-- A worker with two units is offered. -/
def offering : Machine :=
  asked (.fresh .fifo [] false 8) 0 (.addWorker (.permanent "n") (.cpus ⟨2, by omega⟩) default)

/-- Then a task that needs one of them is submitted. -/
def submitting : Machine :=
  asked (offering.advance 5).world 1 (.submit (.single (.cpus 1) "h") .silent)

theorem course_submitting :
    Course (.quiet fun c => c.surface ≠ .pool) (.fresh .fifo [] false 8)
      (moments 8 submitting ++ (moments 5 offering ++ [])) ⟨(submitting.advance 8).world, []⟩ :=
  (Course.start.call 0 5 (show _ ≠ _ by decide) (by decide +kernel)).call 1 8
    (show _ ≠ _ by decide) (by decide +kernel)

theorem balanced_submitting :
    (submitting.advance 8).world.schedule.bindingOf? 1 = some (.permanent "n") ∧
      (submitting.advance 8).world.Consistent ∧
      ∀ v, (submitting.advance 8).world.pool.worker? (.permanent "n") = some v → v.Balanced := by
  obtain ⟨hcons, hbal⟩ := Course.consistent_and_balanced
    (show (Conduct.quiet fun c => c.surface ≠ .pool).SparesPool from ⟨fun h => h, False.elim⟩)
    course_submitting
  refine ⟨by decide +kernel, hcons, fun v hv => hbal _ v hv ?_⟩
  intro c
  have hseq : ((submitting.advance 8).world.pool.worker? (.permanent "n")).map Worker.seq =
      some 0 := by decide +kernel
  rw [hv, Option.map_some, Option.some_inj] at hseq
  rw [hseq]
  cases c <;> decide +kernel

end Machine

end TaskGrid
