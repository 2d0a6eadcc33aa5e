import TaskGrid.Proofs.Losses
import TaskGrid.Proofs.Saving
import TaskGrid.Proofs.WorkConservation

/-!
# Cancelling undoes submitting

Submitting a task and cancelling it at once runs two passes over the whole grid, and yet leaves
everything else where it was.  Between calls nothing ready fits anywhere, so the first pass can bind
nothing but the new action; what is reserved for it is given back in full when it ends; and then
nothing fits again, so the second pass binds nothing at all.

What is listed as ready and as waiting follows from the entries, since the table is coherent.  Only
what was told is different afterwards, and the identifier is used up.

* `Pool.Lends`: at most one action holds something more than before.
* `Schedule.Joined`, `World.joined_passed`: a pass that can only bind the action that is new.
* `World.Completes.passes`: something is told, and then a pass runs.
* `World.Restored`: actions, workers and data are as they were.
* `Machine.Course.undone`: a cancelled submission leaves no trace.
-/

namespace TaskGrid

open Pass (NothingFits)

/-! ## What is lent is given back -/

/-- What was reserved is free again when it is released. -/
theorem Worker.release?_of_reserve? {v v' : Worker} {id : Nat} {need : Capacity}
    (hr : v.reserve? id need = some v') (hnew : v.reservations.get? id = none) :
    v'.release? id = some v := by
  obtain ⟨-, free, hsub, rfl⟩ := reserve?_eq_some_iff.mp hr
  have hfree : free.merge need = v.free := Capacity.ext_get fun c => by
    have hsum := Capacity.count_get_of_subtract hsub c
    have hbound := (v.free.get c).bounded
    rw [Capacity.get_merge]
    ext
    rw [Units.count_add]
    omega
  have hreservations : (v.reservations.insert id need).erase id = v.reservations :=
    SortedMap.ext_get? fun k => by
      rw [SortedMap.get?_erase, SortedMap.get?_insert]
      by_cases hk : k = id
      · rw [if_pos hk, hk, hnew]
      · rw [if_neg hk, if_neg hk]
  refine release?_eq_some_iff.mpr ⟨need, SortedMap.get?_insert_self .., ?_⟩
  dsimp only
  rw [hfree, hreservations]

/-- A pool lends something to an action, or nothing if the action is bound to no worker. -/
inductive Pool.Lends (p : Pool) (id : Nat) : Option WorkerKey → Pool → Prop where
  /-- Nothing is lent. -/
  | nothing : p.Lends id none p
  /-- A worker has something reserved. -/
  | units {key : WorkerKey} {v v' : Worker} {need : Capacity} (hv : p.worker? key = some v)
      (hr : v.reserve? id need = some v') :
    p.Lends id (some key) { p with workers := p.workers.insert key v' }

namespace Pool

variable {p q : Pool} {id : Nat} {binding : Option WorkerKey}

/-- A pool that lends something has less to offer. -/
theorem Lends.shrinks (h : p.Lends id binding q) : p.Shrinks q := by
  cases h with
  | nothing => exact .refl p
  | @units key v v' need hv hr =>
    obtain ⟨hacc, free, hsub, rfl⟩ := Worker.reserve?_eq_some_iff.mp hr
    intro k u hu hu'
    rw [worker?_of_insert rfl] at hu
    split at hu
    · next hk =>
      rw [← Option.some_inj.mp hu]
      refine ⟨v, hk ▸ hv, hacc, fun c => ?_⟩
      rw [Units.le_iff, ← Capacity.count_get_of_subtract hsub c]
      exact Nat.le_add_right _ _
    · exact Shrinks.refl p k u hu hu'

/-- When the action ends, the pool is as it was, and no worker can leave that could not before. -/
theorem Lends.given_back {x : Entry} (h : p.Lends x.action.id x.binding q)
    (hnew : ∀ {key v}, p.worker? key = some v → v.reservations.get? x.action.id = none) :
    (Schedule.releaseBinding q x {}).1 = p ∧ (Schedule.releaseBinding q x {}).2.drained = [] := by
  generalize hb : x.binding = binding at h
  cases h with
  | nothing =>
    unfold Schedule.releaseBinding
    rw [hb]
    exact ⟨rfl, rfl⟩
  | @units key v v' need hv hr =>
    have hback := Worker.release?_of_reserve? hr (hnew hv)
    obtain ⟨hacc, -, -, -⟩ := Worker.reserve?_eq_some_iff.mp hr
    have hrelease := release?_eq_some_iff.mpr
      ⟨v', v, (worker?_of_insert (q := { p with workers := p.workers.insert key v' }) rfl key).trans
        (if_pos rfl), hback, rfl⟩
    have hsame : (p.workers.insert key v').insert key v = p.workers :=
      SortedMap.ext_get? fun k => by
        rw [SortedMap.get?_insert, SortedMap.get?_insert]
        split
        · next hk => exact hk ▸ hv.symm
        · rfl
    have hstays : v.isDrained = false := Worker.not_drained_of_accepting hacc
    unfold Schedule.releaseBinding
    rw [hb]
    dsimp only
    rw [hrelease]
    dsimp only
    rw [hsame, hstays]
    exact ⟨rfl, rfl⟩

end Pool

/-! ## A pass that can only bind one action -/

/-- Table and pool are as two others, but for one action, which may hold something. -/
structure Schedule.Joined (s : Schedule) (p : Pool) (id : Nat) (t : Schedule) (q : Pool) :
    Prop where
  /-- All other actions are as they were. -/
  others : ∀ i, i ≠ id → t.standing? i = s.standing? i
  /-- Nothing but what the action holds is lent. -/
  lends : ∃ x, t.standing? id = some x ∧ p.Lends id x.binding q

/-- Where nothing else fits, only the one action is bound. -/
theorem Schedule.Joined.binds {s t u : Schedule} {p q r : Pool} {id : Nat} {x : Standing}
    {key : WorkerKey} {i : Implementation} (h : s.Joined p id t q) (hn : NothingFits s p)
    (ht : t.Sound) (hb : t.Binds q x key i u r) : s.Joined p id u r := by
  obtain ⟨y, hy, hlends⟩ := h.lends
  obtain ⟨v, v', hv, hr, hq⟩ := hb.reserved
  by_cases hid : x.action.id = id
  · obtain rfl : x = y := Option.some_inj.mp (by rw [← hb.live, hid, hy])
    have hfree := ht.binding_of_ready hb.live hb.state
    rw [hfree] at hlends
    cases hlends
    refine ⟨fun j hj => ?_, { x with state := .assigned, binding := some key }, ?_, ?_⟩
    · rw [hb.standing?, if_neg (hid ▸ hj)]
      exact h.others j hj
    · rw [hb.standing?, if_pos hid.symm]
    · rw [hq]
      exact .units hv (hid ▸ hr)
  · -- what was there before does not fit
    obtain ⟨hacc, free, hsub, -⟩ := Worker.reserve?_eq_some_iff.mp hr
    have hfits := Capacity.contains_of_subtract hsub
    have hlive : s.standing? x.action.id = some x := (h.others _ hid).symm.trans hb.live
    rw [hn.mono (.refl s) hlends.shrinks _ _ _ _ hlive hb.state hv hacc i hb.mem] at hfits
    cases hfits

namespace World

variable {w : World}

/-- A pass that nothing disturbs binds at most the one action. -/
theorem joined_passed {s : Schedule} {p : Pool} {id : Nat} (ha : Agrees w.schedule w.pool [])
    (hcalm : w.disturbances = []) (hn : NothingFits s p) (h : s.Joined p id w.schedule w.pool) :
    s.Joined p id w.passed.schedule w.passed.pool := by
  have hsteady := ha.steady w.catalog w.scored
  rw [← hcalm] at hsteady
  refine (Pass.run_preserves w.policy hsteady (P := fun t q => s.Joined p id t q) h
    (fun ht hj hb => hj.binds hn ht hb) fun {t u q} hj hre => ⟨fun i hi => ?_, ?_⟩).2
  · exact (hre.standing? i).trans (hj.others i hi)
  · obtain ⟨x, hx, hlends⟩ := hj.lends
    exact ⟨x, (hre.standing? id).trans hx, hlends⟩

/-- Where nothing fits, a pass that nothing disturbs binds nothing. -/
theorem restates_passed (ha : Agrees w.schedule w.pool []) (hcalm : w.disturbances = [])
    (hn : NothingFits w.schedule w.pool) :
    w.schedule.Restates w.passed.schedule ∧ w.passed.pool = w.pool := by
  have hsteady := ha.steady w.catalog w.scored
  rw [← hcalm] at hsteady
  refine (Pass.run_preserves w.policy hsteady
    (P := fun t q => w.schedule.Restates t ∧ q = w.pool) ⟨.refl _, rfl⟩
    (fun {t q x key i u r} _ hj hb => ?_) fun hj hre => ⟨hj.1.trans hre, hj.2⟩).2
  obtain ⟨hre, rfl⟩ := hj
  obtain ⟨v, v', hv, hr, -⟩ := hb.reserved
  obtain ⟨hacc, free, hsub, -⟩ := Worker.reserve?_eq_some_iff.mp hr
  have hfits := Capacity.contains_of_subtract hsub
  rw [hn _ _ _ _ ((hre.standing? _).symm.trans hb.live) hb.state hv hacc i hb.mem] at hfits
  cases hfits

end World

/-! ## Who is told and what is missed -/

/-- The monitor of an action and the data that it misses. -/
def Entry.terms (x : Entry) : Monitor × SortedSet String := (x.monitor, x.missing)

@[simp] theorem Entry.terms_emit (x : Entry) (e : Event) (o : Outbox) :
    (x.emit e o).1.terms = x.terms := by
  unfold emit terms
  split <;> rfl

/-- The terms of a live action. -/
def Schedule.terms? (s : Schedule) (id : Nat) : Option (Monitor × SortedSet String) :=
  (s.actions.get? id).map Entry.terms

namespace Schedule

variable {s t : Schedule}

/-- One entry is replaced by one with the same terms. -/
theorem terms?_of_insert {id : Nat} {x e : Entry} (hx : s.actions.get? id = some x)
    (ht : t.actions = s.actions.insert id e) (he : e.terms = x.terms) (i : Nat) :
    t.terms? i = s.terms? i := by
  unfold terms?
  rw [ht, SortedMap.get?_insert]
  split
  · next hi => rw [hi, hx, Option.map_some, Option.map_some, he]
  · rfl

/-- The terms of all actions are there before are as they were. -/
theorem terms?_accept (s : Schedule) (c : Catalog) (task : Submission) (monitor : Monitor)
    {i : Nat} (hi : i ≠ s.nextId) : (s.accept c task monitor).2.1.terms? i = s.terms? i := by
  unfold accept terms?
  dsimp only
  split <;> exact congrArg (Option.map Entry.terms) (SortedMap.get?_insert_of_ne _ _ hi)

theorem terms?_conclude (s : Schedule) (p : Pool) (x : Entry) (events : List Event)
    (last : ActionState) {i : Nat} (hi : i ≠ x.action.id) :
    (s.conclude p x events last).1.terms? i = s.terms? i := by
  unfold terms?
  rw [(conclude_frame s p x events last).1, SortedMap.get?_erase_of_ne _ hi]

/-- Who waits for a name can be read off standings and terms. -/
theorem Coherent.mem_waiting_iff (h : s.Coherent) {id : Nat} {n : String} :
    id ∈ s.waiting n ↔ ∃ x m, s.standing? id = some x ∧ s.terms? id = some m ∧
      x.state = .blocked ∧ n ∈ m.2 := by
  unfold standing? terms?
  rw [h.waiting_iff]
  constructor
  · rintro ⟨x, hx, hstate, hmissing⟩
    exact ⟨x.standing, x.terms, by rw [hx]; rfl, by rw [hx]; rfl, hstate, hmissing⟩
  · rintro ⟨y, m, hy, hm, hstate, hmissing⟩
    obtain ⟨x, hx, rfl⟩ := Option.map_eq_some_iff.mp hy
    rw [hx] at hm
    obtain rfl := Option.some_inj.mp hm
    exact ⟨x, hx, hstate, hmissing⟩

/-- Coherent tables with the same standings and the same terms list the same actions as ready and
as waiting. -/
theorem Coherent.queues_eq (hs : s.Coherent) (ht : t.Coherent)
    (standings : ∀ i, t.standing? i = s.standing? i) (terms : ∀ i, t.terms? i = s.terms? i) :
    t.ready = s.ready ∧ t.blocked = s.blocked := by
  refine ⟨SortedSet.ext_mem fun i => ?_, SortedMap.ext_get? fun n => ?_⟩
  · rw [ht.ready_iff, hs.ready_iff, standings]
  · have hwaiting : t.waiting n = s.waiting n := SortedSet.ext_mem fun i => by
      rw [ht.mem_waiting_iff, hs.mem_waiting_iff, standings, terms]
    unfold waiting at hwaiting
    -- a name is kept exactly where somebody is listed under it
    cases hb : t.blocked.get? n with
    | none =>
      cases hb' : s.blocked.get? n with
      | none => rfl
      | some ids =>
        rw [hb, hb'] at hwaiting
        have hnil := hs.pruned hb'
        rw [← show SortedSet.empty = ids from hwaiting] at hnil
        cases hnil
    | some ids =>
      cases hb' : s.blocked.get? n with
      | none =>
        rw [hb, hb'] at hwaiting
        have hnil := ht.pruned hb
        rw [show ids = SortedSet.empty from hwaiting] at hnil
        cases hnil
      | some ids' =>
        rw [hb, hb'] at hwaiting
        exact congrArg some hwaiting

end Schedule

namespace Pass

theorem terms?_bind (p : Pass) (x : Candidate) (free : Capacity) (pool : Pool) (i : Nat) :
    (p.bind x free pool).schedule.terms? i = p.schedule.terms? i := by
  unfold bind
  dsimp only
  split
  · rfl
  · next e he =>
    refine Schedule.terms?_of_insert he rfl ?_ i
    exact Entry.terms_emit _ _ _

theorem terms?_reportOne (views : List WorkerView) (s : Schedule) (o : Outbox) (id i : Nat) :
    (reportOne views s o id).1.terms? i = s.terms? i := by
  unfold reportOne
  split
  · rfl
  · next x hx =>
    dsimp only
    split
    · rfl
    · exact Schedule.terms?_of_insert hx rfl (Entry.terms_emit _ _ _) i

theorem stable_terms? (s : Schedule) : Stable fun t _ => ∀ i, t.terms? i = s.terms? i where
  disturb _ _ h := h
  bind {p x free pool} h _ _ i := (p.terms?_bind x free pool i).trans (h i)
  report views o id h i := (terms?_reportOne views _ o id i).trans (h i)

end Pass

/-! ## Something is told, and then a pass runs -/

namespace World

variable {w w' : World} {l : List Item} {t : List Moment}

/-- Between two worlds something was only told. -/
structure OnlyTold (w w' : World) : Prop where
  /-- The same actions. -/
  schedule : w'.schedule = w.schedule
  /-- The same workers. -/
  pool : w'.pool = w.pool
  /-- The same data. -/
  catalog : w'.catalog = w.catalog
  /-- No disturbance is to come. -/
  calm : w'.disturbances = []
  /-- No session is open. -/
  sessionless : w'.Sessionless

theorem OnlyTold.trans {v : World} (h : w.OnlyTold w') (h' : w'.OnlyTold v) : w.OnlyTold v :=
  ⟨h'.schedule.trans h.schedule, h'.pool.trans h.pool, h'.catalog.trans h.catalog, h'.calm,
    h'.sessionless⟩

theorem Completes.onlyTold (h : w.Completes l t w') (hl : ∀ i ∈ l, i.isTelling = true)
    (hcalm : w.disturbances = []) (hclosed : w.Sessionless) : w.OnlyTold w' := by
  obtain ⟨hschedule, hpool, hclosed', -⟩ := h.telling hl hclosed
  obtain ⟨⟨hcalm', hcatalog, -⟩, -⟩ := h.along
    (P := fun v => v.disturbances = [] ∧ v.catalog = w.catalog ∧ v.Sessionless)
    (S := fun i => i.isTelling = true)
    (fun {v i} hv hi => by
      have hleaves : i.leavesData = true := by cases i <;> first | rfl | cases hi
      refine ⟨⟨calm_carryOut hv.1 i, (catalog_carryOut hv.1 hleaves).trans hv.2.1, ?_⟩,
        (telling_carryOut hi hv.2.2).2.2.1⟩
      refine sessionless_carryOut hv.2.2 fun token c he => ?_
      subst he
      cases hi)
    ⟨hcalm, rfl, hclosed⟩ hl
  exact ⟨hschedule, hpool, hcatalog, hcalm', hclosed'⟩

/-- Something was told, and then a pass ran and what it did was told. -/
structure Passes (w w' : World) : Prop where
  /-- The pass ran in a world that differs only in what was told. -/
  passed : ∃ v, w.OnlyTold v ∧ w'.schedule = v.passed.schedule ∧ w'.pool = v.passed.pool
  /-- The same data. -/
  catalog : w'.catalog = w.catalog
  /-- No disturbance is to come. -/
  calm : w'.disturbances = []
  /-- No session is open. -/
  sessionless : w'.Sessionless

/-- What was collected is told, and a pass runs before the command is answered. -/
theorem Completes.passes {o : Outbox} {token : Nat} {r : Reply}
    (h : w.Completes (Item.ofOutbox o ++ [.pass none] ++ [.reply token r]) t w')
    (drained : o.drained = []) (hcalm : w.disturbances = []) (hclosed : w.Sessionless) :
    w.Passes w' ∧ w'.log.head? = some (.replied token r) := by
  refine ⟨?_, h.answers⟩
  obtain ⟨_, u, _, hwork, hlast, -⟩ := h.of_append
  obtain ⟨_, v, _, htold, hpass, -⟩ := hwork.of_append
  have hbefore := htold.onlyTold (Item.telling_ofOutbox drained).1 hcalm hclosed
  obtain ⟨_, hafter, -⟩ := hpass.of_single
  have hquiet := calm_passed hbefore.calm
  have hitems : (v.runPass none).2 = Item.ofOutbox v.passed.outbox := by
    show v.passed.incidents.map Item.ofIncident ++ Item.ofOutbox v.passed.outbox ++ [] = _
    rw [hquiet.2.2, List.append_nil]
    rfl
  have hclosed' : (v.runPass none).1.Sessionless :=
    sessionless_carryOut (i := .pass none) hbefore.sessionless nofun
  have hbound := hafter.onlyTold (hitems ▸ (Item.telling_ofOutbox
    (Pass.amid_run v.policy _).drained).1) hquiet.1 hclosed'
  have hrest := hbound.trans
    (hlast.onlyTold (by simp [Item.isTelling, Item.reply]) hbound.calm hbound.sessionless)
  exact ⟨⟨v, hbefore, hrest.schedule, hrest.pool⟩,
    hrest.catalog.trans (hquiet.2.1.trans hbefore.catalog), hrest.calm, hrest.sessionless⟩

/-- The table stays coherent while items are completed. -/
theorem Completes.coherent (h : w.Completes l t w') (hw : w.schedule.Coherent) :
    w'.schedule.Coherent := by
  obtain ⟨⟨hw', -⟩, -⟩ := h.along (P := fun v => v.schedule.Coherent ∧ True) (S := fun _ => True)
    (fun {v i} hv _ => ⟨⟨(v.does_carryOut i).moves.coherent hv.1, trivial⟩, fun _ _ => trivial⟩)
    ⟨hw, trivial⟩ fun _ _ => trivial
  exact hw'

/-! ## Submitting and cancelling -/

/-- The action `id` was submitted, and nothing else changed. -/
structure Gains (w : World) (id : Nat) (w' : World) : Prop where
  /-- All other actions are as they were, and only what the new action holds is lent. -/
  joined : w.schedule.Joined w.pool id w'.schedule w'.pool
  /-- All other actions miss what they missed. -/
  terms : ∀ i, i ≠ id → w'.schedule.terms? i = w.schedule.terms? i
  /-- The same data. -/
  catalog : w'.catalog = w.catalog

theorem terms?_passed (w : World) (i : Nat) :
    w.passed.schedule.terms? i = w.schedule.terms? i :=
  (Pass.stable_terms? w.schedule).run w.policy (fun _ => rfl) i

/-- What is accepted holds nothing. -/
theorem joined_accept (w : World) (task : Submission) (monitor : Monitor) :
    w.schedule.Joined w.pool w.schedule.nextId (w.schedule.accept w.catalog task monitor).2.1
      w.pool where
  others i hi := by rw [Schedule.standing?_accept, if_neg hi]
  lends := ⟨_, (w.schedule.standing?_accept w.catalog task monitor _).trans (if_pos rfl), .nothing⟩

/-- Submitting where nothing fits changes nothing else. -/
theorem Completes.gains {token : Nat} {task : Submission} {monitor : Monitor}
    (h : w.Completes [.obey token (.submit task monitor)] t w') (ha : Agrees w.schedule w.pool [])
    (hcalm : w.disturbances = []) (hn : NothingFits w.schedule w.pool) (hclosed : w.Sessionless) :
    w.Gains w.schedule.nextId w' ∧
      w'.log.head? = some (.replied token (.number w.schedule.nextId)) ∧ w'.Sessionless := by
  obtain ⟨_, hall, -⟩ := h.of_single
  obtain ⟨⟨⟨v, hbefore, hschedule, hpool⟩, hcatalog, -, hclosed'⟩, hanswer⟩ :=
    hall.passes (o := (w.schedule.accept w.catalog task monitor).2.2)
      (r := .number (w.schedule.accept w.catalog task monitor).1)
      (w.schedule.drained_accept w.catalog task monitor) hcalm hclosed
  have hv : v.schedule = (w.schedule.accept w.catalog task monitor).2.1 := hbefore.schedule
  have hvpool : v.pool = w.pool := hbefore.pool
  have hagrees : Agrees v.schedule v.pool [] := by
    rw [hv, hvpool]
    exact ha.retains (Schedule.retains_accept ha.sound w.catalog task monitor)
      (Schedule.sound_accept ha.sound w.catalog task monitor) (.refl w.pool)
  have hjoined : w.schedule.Joined w.pool w.schedule.nextId v.schedule v.pool := by
    rw [hv, hvpool]
    exact w.joined_accept task monitor
  refine ⟨⟨?_, fun i hi => ?_, hcatalog⟩, ?_, hclosed'⟩
  · rw [hschedule, hpool]
    exact joined_passed hagrees hbefore.calm hn hjoined
  · rw [hschedule, terms?_passed, hv, Schedule.terms?_accept _ _ _ _ hi]
  · rw [hanswer, Schedule.fst_accept]

/-- Nothing but what was told distinguishes two worlds. -/
structure Restored (w w' : World) : Prop where
  /-- The same workers, with the same free, reserved and total capacity. -/
  pool : w'.pool = w.pool
  /-- The same actions, each in the state in which it was and bound where it was. -/
  standings : ∀ id, w'.schedule.standing? id = w.schedule.standing? id
  /-- They miss what they missed, and the same monitors are told. -/
  terms : ∀ id, w'.schedule.terms? id = w.schedule.terms? id
  /-- The same actions are ready. -/
  ready : w'.schedule.ready = w.schedule.ready
  /-- The same actions wait for the same names. -/
  blocked : w'.schedule.blocked = w.schedule.blocked
  /-- The same data. -/
  catalog : w'.catalog = w.catalog

theorem carryOut_cancel {id : Nat} {x : Entry} (hx : w.schedule.actions.get? id = some x)
    (token : Nat) : w.carryOut (.obey token (.cancel id)) =
      ((w.conclude x [] [.cancelled id] .cancelled).1,
        (w.conclude x [] [.cancelled id] .cancelled).2 ++ [.reply token (.flag true)]) := by
  show w.cancel token id = _
  rw [cancel, hx]

/-- Cancelling what was submitted last gives everything back. -/
theorem Gains.restored {id : Nat} {v v' : World} {token : Nat} (h : w.Gains id v)
    (hc : v.Completes [.obey token (.cancel id)] t v') (hw : w.schedule.Coherent)
    (ha : Agrees w.schedule w.pool []) (hn : NothingFits w.schedule w.pool)
    (hnew : w.schedule.nextId ≤ id) (hv : v.schedule.Coherent)
    (hva : Agrees v.schedule v.pool []) (hcalm : v.disturbances = []) (hclosed : v.Sessionless) :
    w.Restored v' ∧ v'.log.head? = some (.replied token (.flag true)) := by
  have hgone : w.schedule.actions.get? id = none := by
    cases hx : w.schedule.actions.get? id with
    | none => rfl
    | some x =>
      exact absurd (hw.old (Schedule.standing?_eq_some_iff.mpr ⟨x, hx, rfl⟩)) (Nat.not_lt.mpr hnew)
  have hid : w.schedule.standing? id = none := by rw [Schedule.standing?, hgone]; rfl
  obtain ⟨y, hy, hlends⟩ := h.joined.lends
  obtain ⟨x, hx, rfl⟩ := Schedule.standing?_eq_some_iff.mp hy
  obtain rfl : x.action.id = id := hv.named hy
  -- what the action holds is given back
  obtain ⟨hback, hdrained⟩ := hlends.given_back fun {key u} hu => by
    cases hheld : u.reservations.get? x.action.id with
    | none => rfl
    | some need =>
      obtain ⟨z, hz, -⟩ := ha.held hu hheld
      rw [hid] at hz
      cases hz
  obtain ⟨_, hall, -⟩ := hc.of_single
  rw [carryOut_cancel hx] at hall
  obtain ⟨⟨⟨u, hbefore, hschedule, hpool⟩, hcatalog, -, -⟩, hanswer⟩ :=
    hall.passes (o := (v.schedule.conclude v.pool x [.cancelled x.action.id] .cancelled).2.2)
      ((Schedule.drained_conclude v.schedule).trans hdrained) hcalm hclosed
  have hu : u.schedule = (v.schedule.conclude v.pool x [.cancelled x.action.id] .cancelled).1 :=
    hbefore.schedule
  have hupool : u.pool = w.pool := hbefore.pool.trans hback
  have hstandings (i : Nat) : u.schedule.standing? i = w.schedule.standing? i := by
    rw [hu, Schedule.standing?_conclude]
    split
    · next hi => rw [hi, hid]
    · next hi => exact h.joined.others i hi
  have hterms (i : Nat) : u.schedule.terms? i = w.schedule.terms? i := by
    rw [hu]
    by_cases hi : i = x.action.id
    · rw [Schedule.terms?, Schedule.terms?, (Schedule.conclude_frame ..).1, hi,
        SortedMap.get?_erase_self, hgone]
    · rw [Schedule.terms?_conclude _ _ _ _ _ hi, h.terms i hi]
  -- and then nothing fits, as before
  have hagrees : Agrees u.schedule u.pool [] := by
    rw [hu, hbefore.pool]
    exact hva.dismisses (hva.dismisses_conclude hx _ _)
  have hnothing : NothingFits u.schedule u.pool := fun i z key k hz => by
    rw [hupool]
    exact hn i z key k ((hstandings i).symm.trans hz)
  obtain ⟨hre, hsame⟩ := restates_passed hagrees hbefore.calm hnothing
  have hfinal (i : Nat) : v'.schedule.standing? i = w.schedule.standing? i := by
    rw [hschedule, hre.standing?, hstandings]
  have hfinal' (i : Nat) : v'.schedule.terms? i = w.schedule.terms? i := by
    rw [hschedule, terms?_passed, hterms]
  obtain ⟨hready, hblocked⟩ := hw.queues_eq (hc.coherent hv) hfinal hfinal'
  exact ⟨⟨hpool.trans (hsame.trans hupool), hfinal, hfinal', hready, hblocked,
    hcatalog.trans h.catalog⟩, hanswer⟩

end World

/-! ## Every submission -/

namespace Machine

variable {rule : Conduct} {policy : Policy} {localNodes : List String} {withholds : Bool}
  {limit : Nat} {t : List Moment} {m : Machine} {w : World}

/-- Any number of steps keeps table and pool in agreement. -/
theorem InAgreement.advance (h : m.InAgreement) (n : Nat) : (m.advance n).InAgreement := by
  induction n generalizing m with
  | zero => exact h
  | succ n ih =>
    obtain ⟨w, agenda⟩ := m
    cases agenda with
    | nil => exact ih h
    | cons i rest => exact ih h.step

/-- Between calls, whatever was asked of the scheduler and the catalog, a task that is submitted and
cancelled at once is accepted and cancelled, and all workers, all other actions and all data are as
they were before. -/
theorem Course.undone (hrule : rule.Agentless)
    (h : Course rule (World.fresh policy localNodes withholds limit) t ⟨w, []⟩)
    (task : Submission) (monitor : Monitor) (token token' : Nat) :
    ∃ id s w₁ s' w₂, (asked w token (.submit task monitor)).Returns s w₁ ∧
      w₁.log.head? = some (.replied token (.number id)) ∧
      (asked w₁ token' (.cancel id)).Returns s' w₂ ∧
      w₂.log.head? = some (.replied token' (.flag true)) ∧ w.Restored w₂ := by
  have hspares := hrule.attentive.sparesPool
  have hag := h.inAgreement hspares
  have hcoherent := h.coherent (Schedule.coherent_empty limit)
  have hn : NothingFits w.schedule w.pool := by
    rcases h.workConserved hspares with hn | ⟨_, hj⟩
    · exact hn
    · cases hj
  obtain ⟨s, w₁, hsubmit, -⟩ := w.exists_completes hag.calm (.obey token (.submit task monitor))
  obtain ⟨hgains, hnumber, hclosed⟩ :=
    hsubmit.gains hag.agrees hag.calm hn (h.sessionless hrule)
  have hreturns : (asked w token (.submit task monitor)).Returns s w₁ := hsubmit.advance []
  have hag₁ : InAgreement ⟨w₁, []⟩ :=
    hreturns.1 ▸ (hag.ask token (c := .submit task monitor) nofun).advance s.length
  obtain ⟨s', w₂, hcancel, -⟩ :=
    w₁.exists_completes hag₁.calm (.obey token' (.cancel w.schedule.nextId))
  obtain ⟨hrestored, hflag⟩ := hgains.restored hcancel hcoherent hag.agrees hn (Nat.le_refl _)
    (hsubmit.coherent hcoherent) hag₁.agrees hag₁.calm hclosed
  exact ⟨_, s, w₁, s', w₂, hreturns, hnumber, hcancel.advance [], hflag, hrestored⟩

/-! ### A task that is bound and cancelled -/

/-- Of two units one is taken, and a task that needs both has to wait. -/
def exceeding : Machine :=
  asked (submitting.advance 8).world 2 (.submit (.single (.cpus (1 + 1)) "h") .silent)

/-- Another task misses a datum. -/
def missingOut : Machine :=
  asked (exceeding.advance 7).world 3
    (.submit ((Submission.single (.cpus 1) "h").reading "a") .silent)

theorem course_missingOut :
    Course (.quiet fun c => c.surface = .scheduler ∨ c.surface = .catalog)
      (.fresh .fifo [] false 8)
      (moments 6 missingOut ++ (moments 7 exceeding ++ (moments 8 submitting ++
        (moments 5 offering ++ [])))) ⟨(missingOut.advance 6).world, []⟩ :=
  (((Course.start.call 0 5 (Or.inl rfl) (by decide +kernel)).call 1 8 (Or.inl rfl)
    (by decide +kernel)).call 2 7 (Or.inl rfl) (by decide +kernel)).call 3 6 (Or.inl rfl)
    (by decide +kernel)

/-- A task that needs one unit is bound to the worker, and when it is cancelled everything is as
before: one action bound, one ready, and one waiting. -/
theorem undone_missingOut :
    let w := (missingOut.advance 6).world
    let asking := asked w 4 (.submit (.single (.cpus 1) "h") .silent)
    (w.schedule.boundCount = 1 ∧ w.schedule.readyCount = 1 ∧ w.schedule.blockedCount = 1 ∧
        (asking.advance 8).world.schedule.bindingOf? 4 = some (.permanent "n")) ∧
      ∃ id s w₁ s' w₂, asking.Returns s w₁ ∧ w₁.log.head? = some (.replied 4 (.number id)) ∧
        (asked w₁ 5 (.cancel id)).Returns s' w₂ ∧
        w₂.log.head? = some (.replied 5 (.flag true)) ∧ w.Restored w₂ :=
  ⟨by decide +kernel, Course.undone agentless_quiet course_missingOut _ _ 4 5⟩

end Machine

end TaskGrid
