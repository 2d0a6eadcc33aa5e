import TaskGrid.Proofs.Coherence
import TaskGrid.Proofs.Instances

/-!
# Who holds capacity

Calls that go to the pool alone, and what disturbs a pass, can take a worker away behind the
scheduler, and then the table says that an action is bound where nothing is reserved for it.  The
other direction never fails: nothing is reserved for an action that waits.  With this, and with
numbers that no two workers share, a pass can rely on what it sees whatever happened before it
(`Covers`).

* `Covers`: the invariant.
* `Pool.Shifts`: what any operation does to workers and reservations, apart from reservations
  themselves.
* `Machine.Run.covers`: the invariant along every run.
-/

namespace TaskGrid

/-- Capacity is held by bound actions only, and workers are told apart by their numbers. -/
structure Covers (s : Schedule) (p : Pool) : Prop where
  /-- The table is in order. -/
  sound : s.Sound
  /-- What is reserved is reserved for an action that was accepted, and that is bound if it is
  live. -/
  held : ∀ {key v id need}, p.worker? key = some v → v.reservations.get? id = some need →
    id < s.nextId ∧ ∀ {x}, s.standing? id = some x → x.state.holdsCapacity = true
  /-- Workers are numbered in the order of their registrations. -/
  numbered : ∀ {key v}, p.worker? key = some v → v.seq < p.nextSeq
  /-- No two workers have the same number. -/
  distinct : p.Distinct

theorem covers_empty (limit : Nat) {p : Pool} (h : p.workers = .empty) :
    Covers { historyLimit := limit } p := by
  have hnone (key : WorkerKey) : p.worker? key = none := by
    rw [Pool.worker?, h]
    rfl
  refine ⟨Schedule.sound_empty limit, fun {key v id need} hv => ?_, fun {key v} hv => ?_,
    fun {k k' v v'} hv => ?_⟩ <;>
  · rw [hnone] at hv
    cases hv

/-! ## Changes of the pool -/

/-- From one pool to another no reservation is made, and at most one worker is registered, under
the next number. -/
structure Pool.Shifts (p q : Pool) : Prop where
  /-- Who is there was there under the same number and held at least as much, or it is the one
  that is registered. -/
  back : ∃ key, ∀ {k u}, q.worker? k = some u →
    (∃ v, p.worker? k = some v ∧ u.seq = v.seq ∧
        ∀ {id need}, u.reservations.get? id = some need → v.reservations.get? id = some need) ∨
      k = key ∧ u.seq = p.nextSeq ∧ p.nextSeq < q.nextSeq ∧ ∀ id, u.reservations.get? id = none
  /-- Numbers are not handed out again. -/
  nextSeq : p.nextSeq ≤ q.nextSeq

namespace Pool

variable {p q : Pool} {key : WorkerKey} {u v : Worker} {c : Catalog}

theorem Shifts.refl (p : Pool) : p.Shifts p :=
  ⟨⟨.permanent "", fun hu => .inl ⟨_, hu, rfl, fun h => h⟩⟩, Nat.le_refl _⟩

/-- A worker that is replaced by one with the same number that holds nothing else. -/
theorem shifts_of_insert (hv : p.worker? key = some v) (hq : q.workers = p.workers.insert key u)
    (hn : q.nextSeq = p.nextSeq) (seq : u.seq = v.seq)
    (holds : ∀ {id need}, u.reservations.get? id = some need → v.reservations.get? id = some need) :
    p.Shifts q := by
  refine ⟨⟨key, fun {k z} hz => .inl ?_⟩, Nat.le_of_eq hn.symm⟩
  rw [worker?_of_insert hq] at hz
  split at hz
  · next hk =>
    rw [← Option.some_inj.mp hz]
    exact ⟨v, hk ▸ hv, seq, holds⟩
  · exact ⟨z, hz, rfl, fun h => h⟩

/-- A worker can always go. -/
theorem shifts_of_erase (hq : q.workers = p.workers.erase key) (hn : q.nextSeq = p.nextSeq) :
    p.Shifts q := by
  refine ⟨⟨key, fun {k z} hz => .inl ?_⟩, Nat.le_of_eq hn.symm⟩
  rw [worker?_of_erase hq] at hz
  split at hz
  · cases hz
  · exact ⟨z, hz, rfl, fun h => h⟩

theorem shifts_add (p : Pool) (key : WorkerKey) (offered : Capacity) (adaptor : Adaptor) :
    p.Shifts (p.add key offered adaptor).2 := by
  have hq := workers_add p key offered adaptor
  rcases offeredWorker_cases p key offered adaptor with ⟨v, hv, ho, hn⟩ | ⟨-, ho, hn⟩
  · rw [ho] at hq
    exact shifts_of_insert hv hq hn (Worker.seq_offer _ _ _) fun h =>
      Worker.reservations_offer v _ _ ▸ h
  · rw [ho] at hq
    refine ⟨⟨key, fun {k z} hz => ?_⟩, by omega⟩
    rw [worker?_of_insert hq] at hz
    split at hz
    · next hk =>
      rw [← Option.some_inj.mp hz, Worker.seq_offer, Worker.reservations_offer]
      exact .inr ⟨hk, rfl, by omega, fun _ => rfl⟩
    · exact .inl ⟨z, hz, rfl, fun h => h⟩

theorem shifts_reduce (p : Pool) (key : WorkerKey) (amount : Capacity) :
    p.Shifts (p.reduce key amount).2 := by
  rcases reduce_cases p key amount with h | ⟨v, free, total, hv, -, -, h⟩
  · rw [h]
    exact .refl p
  · rw [h]
    exact shifts_of_insert hv rfl rfl rfl fun h => h

theorem shifts_draining {hook : Option RemovalHook} {n : Nat}
    (h : p.requestRemoval? c key hook = some (.draining n q)) : p.Shifts q := by
  obtain ⟨v, hv, -, -, rfl⟩ := requestRemoval?_eq_draining_iff.mp h
  exact shifts_of_insert hv rfl rfl rfl fun h => h

theorem shifts_left {hook : Option RemovalHook} {d : Departure}
    (h : p.requestRemoval? c key hook = some (.left d)) : p.Shifts d.pool := by
  obtain ⟨v, -, -, rfl⟩ := requestRemoval?_eq_left_iff.mp h
  exact shifts_of_erase (workers_depart _ _ _ _ _) rfl

theorem shifts_lose {d : Departure} (h : p.lose? c key = some d) : p.Shifts d.pool := by
  obtain ⟨v, -, rfl⟩ := lose?_eq_some_iff.mp h
  exact shifts_of_erase (workers_depart _ _ _ _ _) rfl

theorem shifts_retire {seq : Nat} {d : Departure} (h : p.retire? c key seq = some d) :
    p.Shifts d.pool := by
  obtain ⟨v, -, -, rfl⟩ := retire?_eq_some_iff.mp h
  exact shifts_of_erase (workers_depart _ _ _ _ _) rfl

/-- Whatever is done to the pool alone makes no reservation. -/
theorem shifts_perform (p : Pool) (c : Catalog) (o : Operation) :
    p.Shifts (p.perform c o).pool := by
  cases o with
  | add key offered adaptor => exact p.shifts_add key offered adaptor
  | reduce key amount =>
    have h := p.shifts_reduce key amount
    unfold perform
    dsimp only
    generalize p.reduce key amount = r at h ⊢
    obtain ⟨f | v, q⟩ := r <;> exact h
  | remove key hook =>
    unfold perform
    dsimp only
    cases h : p.requestRemoval? c key hook with
    | none => exact .refl p
    | some r =>
      cases r with
      | left d => exact shifts_left h
      | draining n q => exact shifts_draining h
  | lose key =>
    unfold perform
    dsimp only
    cases h : p.lose? c key with
    | none => exact .refl p
    | some d => exact shifts_lose h
  | look key => exact .refl p

/-- What an action releases when it ends makes no reservation. -/
theorem shifts_releaseBinding (p : Pool) (x : Entry) :
    p.Shifts (Schedule.releaseBinding p x {}).1 := by
  rcases Schedule.releaseBinding_cases p x with ⟨h, -⟩ | ⟨key, v, v', -, hv, hrel, h, -⟩
  · rw [h]
    exact .refl p
  · rw [h]
    obtain ⟨need, -, rfl⟩ := Option.map_eq_some_iff.mp hrel
    refine shifts_of_insert hv rfl rfl rfl fun {id n} hn => ?_
    rw [SortedMap.get?_erase] at hn
    split at hn
    · cases hn
    · exact hn

end Pool

namespace Covers

variable {s t : Schedule} {p q : Pool}

theorem shifts (h : Covers s p) (hq : p.Shifts q) : Covers s q := by
  obtain ⟨⟨key, hback⟩, hn⟩ := hq
  refine ⟨h.sound, fun {k u id need} hu hneed => ?_, fun {k u} hu => ?_,
    fun {k k' u u'} hu hu' hseq => ?_⟩
  · rcases hback hu with ⟨v, hv, -, hres⟩ | ⟨-, -, -, hnone⟩
    · exact h.held hv (hres hneed)
    · rw [hnone] at hneed
      cases hneed
  · rcases hback hu with ⟨v, hv, hs, -⟩ | ⟨-, hs, hlt, -⟩
    · have := h.numbered hv
      omega
    · omega
  · rcases hback hu with ⟨v, hv, hs, -⟩ | ⟨hk, hs, -⟩ <;>
      rcases hback hu' with ⟨v', hv', hs', -⟩ | ⟨hk', hs', -⟩
    · exact h.distinct hv hv' (hs.symm.trans (hseq.trans hs'))
    · -- the number of a new worker was never used
      have := h.numbered hv
      omega
    · have := h.numbered hv'
      omega
    · rw [hk, hk']

/-- The table may change as long as actions that were bound do not wait again. -/
theorem table (h : Covers s p) (sound : t.Sound) (next : s.nextId ≤ t.nextId)
    (back : ∀ {id y}, id < s.nextId → t.standing? id = some y → ∃ x, s.standing? id = some x ∧
      (x.state.holdsCapacity = true → y.state.holdsCapacity = true)) : Covers t p where
  sound := sound
  held hv hneed := by
    obtain ⟨hlt, hx⟩ := h.held hv hneed
    refine ⟨by omega, fun hy => ?_⟩
    obtain ⟨x, hx', hxy⟩ := back hlt hy
    exact hxy (hx hx')
  numbered := h.numbered
  distinct := h.distinct

/-- Nothing is reserved for a ready action. -/
theorem unheld (h : Covers s p) {id : Nat} (hid : id ∈ s.ready) {key : WorkerKey} {v : Worker}
    (hv : p.worker? key = some v) : v.reservations.get? id = none := by
  cases hn : v.reservations.get? id with
  | none => rfl
  | some need =>
    obtain ⟨x, hx, hr⟩ := h.sound.ready_iff.mp hid
    have hholds := (h.held hv hn).2 hx
    rw [hr] at hholds
    cases hholds

theorem restates (h : Covers s p) (ht : s.Restates t) : Covers t p :=
  h.table (ht.sound h.sound) (Nat.le_of_eq ht.nextId.symm) fun {id y} _ hy =>
    ⟨y, ht.standing? id ▸ hy, fun hh => hh⟩

theorem promotes (h : Covers s p) (ht : s.Promotes t) (sound : t.Sound) : Covers t p :=
  h.table sound (Nat.le_of_eq ht.1.symm) fun _ hy => by
    obtain ⟨x, hx, -, -, hst⟩ := ht.exists_of_standing? hy
    refine ⟨x, hx, fun hh => ?_⟩
    rcases hst with he | ⟨hb, -⟩
    · exact he ▸ hh
    · rw [hb] at hh
      cases hh

theorem accept (h : Covers s p) (c : Catalog) (task : Submission) (monitor : Monitor) :
    Covers (s.accept c task monitor).2.1 p := by
  refine h.table (Schedule.sound_accept h.sound c task monitor) ?_ fun {id y} hlt hy => ?_
  · rw [Schedule.nextId_accept]
    omega
  · rw [Schedule.standing?_accept, if_neg (Nat.ne_of_lt hlt)] at hy
    exact ⟨y, hy, fun hh => hh⟩

theorem markRunning (h : Covers s p) {id : Nat} (ht : s.markRunning? id = some t) :
    Covers t p := by
  obtain ⟨hn, -, x, hx, -, hst⟩ := Schedule.markRunning?_eq_some ht
  refine h.table (Schedule.sound_markRunning h.sound ht) (Nat.le_of_eq hn.symm)
    fun {i y} _ hy => ?_
  rw [hst] at hy
  split at hy
  · next hi => exact ⟨x, hi ▸ hx, fun _ => by rw [← Option.some_inj.mp hy]; rfl⟩
  · exact ⟨y, hy, fun hh => hh⟩

theorem abandon (h : Covers s p) (key : WorkerKey) (ids : List Nat) :
    Covers (s.abandon key ids).1 p := by
  refine h.table (Schedule.sound_abandon h.sound key ids)
    (Nat.le_of_eq (Schedule.nextId_abandon s key ids).symm) fun {i y} _ hy => ?_
  rw [Schedule.standing?_abandon] at hy
  split at hy
  · cases hy
  · exact ⟨y, hy, fun hh => hh⟩

theorem conclude (h : Covers s p) (x : Entry) (events : List Event) (last : ActionState) :
    Covers (s.conclude p x events last).1 (s.conclude p x events last).2.1 := by
  refine (h.table (Schedule.sound_conclude h.sound)
    (Nat.le_of_eq (Schedule.conclude_frame s p x events last).2.2.symm)
    fun {i y} _ hy => ?_).shifts (p.shifts_releaseBinding x)
  rw [Schedule.standing?_conclude] at hy
  split at hy
  · cases hy
  · exact ⟨y, hy, fun hh => hh⟩

/-- What a ready action is bound to holds something for it from then on. -/
theorem binds (h : Covers s p) {x : Standing} {key : WorkerKey} {i : Implementation}
    (hb : s.Binds p x key i t q) : Covers t q where
  sound := hb.sound h.sound
  held {k u id need} hu hneed := by
    obtain ⟨v, hv, -, -, hres⟩ := hb.back hu
    rw [hres] at hneed
    rw [hb.nextId, hb.standing?]
    split at hneed
    · next hnew =>
      refine ⟨hnew.2 ▸ h.sound.old hb.live, fun {y} hy => ?_⟩
      rw [if_pos hnew.2] at hy
      rw [← Option.some_inj.mp hy]
      rfl
    · obtain ⟨hlt, hx⟩ := h.held hv hneed
      refine ⟨hlt, fun {y} hy => ?_⟩
      split at hy
      · rw [← Option.some_inj.mp hy]
        rfl
      · exact hx hy
  numbered {k u} hu := by
    obtain ⟨v, hv, hs, -⟩ := hb.back hu
    rw [hb.nextSeq, hs]
    exact h.numbered hv
  distinct {k k' u u'} hu hu' hseq := by
    obtain ⟨v, hv, hs, -⟩ := hb.back hu
    obtain ⟨v', hv', hs', -⟩ := hb.back hu'
    exact h.distinct hv hv' (hs.symm.trans (hseq.trans hs'))

end Covers

theorem Pass.stable_covers : Pass.Stable Covers where
  disturb c o h := h.shifts (Pool.shifts_perform _ c o)
  bind h hx hr := by
    obtain ⟨e, -, -, hp, hb⟩ := binds_of_reserve? h.sound hx hr
    rw [hp]
    exact h.binds hb
  report views o id h := h.restates (restates_reportOne views _ o id)

namespace World

variable {w : World}

/-- A departure from the pool makes no reservation. -/
theorem covers_removeWorker (h : Covers w.schedule w.pool) (key : WorkerKey)
    (hook : Option RemovalHook) :
    Covers (w.removeWorker key hook).2.1.schedule (w.removeWorker key hook).2.1.pool := by
  unfold removeWorker
  cases hr : w.pool.requestRemoval? w.catalog key hook with
  | none => exact h
  | some r =>
    cases r with
    | draining n q => exact h.shifts (Pool.shifts_draining hr)
    | left d => exact h.shifts (Pool.shifts_left hr)

/-- Every deed keeps order. -/
theorem Does.covers {d : Deed} {e : Effect} (h : w.Does d e) (hw : Covers w.schedule w.pool) :
    Covers e.1.schedule e.1.pool := by
  cases h with
  | idle still _ _ =>
    rw [still.schedule, still.pool]
    exact hw
  | deliver m e =>
    obtain ⟨hs, hp, -⟩ := deliver_frame w m e
    rw [hs, hp]
    exact hw
  | tellHook hook r =>
    obtain ⟨hs, hp, -⟩ := tellHook_frame w hook r
    rw [hs, hp]
    exact hw
  | pass token => exact Pass.stable_covers.run w.policy hw
  | wake name =>
    have ht : Covers (w.schedule.wake name).1 w.pool :=
      hw.promotes (Schedule.promotes_wake w.schedule name) (Schedule.sound_wake hw.sound name)
    unfold World.wake
    dsimp only
    split <;> exact ht
  | submit task monitor _ => exact hw.accept w.catalog task monitor
  | @conclude id x ending _ _ _ _ => exact hw.conclude x (ending.events id) ending.state
  | run marked _ => exact hw.markRunning marked
  | fail key ids => exact hw.abandon key ids
  | offer key offered adaptor _ => exact hw.shifts (w.pool.shifts_add key offered adaptor)
  | reduce key c _ => exact hw.shifts (w.pool.shifts_reduce key c)
  | remove key hook _ => exact covers_removeWorker hw key hook
  | lose lost _ => exact hw.shifts (Pool.shifts_lose lost)
  | retire key seq =>
    unfold World.retire
    cases hr : w.pool.retire? w.catalog key seq with
    | none => exact hw
    | some d => exact hw.shifts (Pool.shifts_retire hr)
  | pool token o => exact hw.shifts (w.pool.shifts_perform w.catalog o)
  | _ => exact hw

end World

/-- At every step of every run, whatever was asked, whatever clients answered and whatever disturbs
the passes, capacity is held by bound actions only. -/
theorem Machine.Run.covers {rule : Conduct} {policy : Policy} {localNodes : List String}
    {withholds : Bool} {limit : Nat} {disturbances : List Disturbance} {l : List Command}
    {m : Machine}
    (h : Run rule { World.fresh policy localNodes withholds limit with disturbances } l m) :
    Covers m.world.schedule m.world.pool :=
  h.invariant (P := fun w => Covers w.schedule w.pool) (covers_empty limit rfl)
    fun w i hw => (w.does_carryOut i).covers hw

end TaskGrid
