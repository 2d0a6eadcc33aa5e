import Mathlib.Data.List.DropRight
import TaskGrid.Proofs.Accounts
import TaskGrid.Proofs.Coherence
import TaskGrid.Proofs.Draining
import TaskGrid.Proofs.Hearing
import TaskGrid.Proofs.Observers
import TaskGrid.Proofs.Sessions

/-!
# The loss of a worker

A worker that is lost leaves without waiting for what is bound to it.  The pool says which actions
that were, and the table lets those of them fail that it has bound there.  As table and pool agree
between calls, the two say the same: exactly the actions that are bound to the worker fail, each is
told once, and no other action and no other worker is touched.

What is told in the call leads to nothing else, as long as clients only listen and no session is
open that could hand its nodes back.  Identifiers are never handed out again, so whatever comes
later, a report about one of the failed actions is refused and changes nothing.

* `Schedule.Fails`: actions failed because their worker is lost.
* `World.Completes.telling`: items that only tell leave actions and workers as they are.
* `World.Loses`: a worker was lost.
* `Machine.Course.loses`: every loss, in every state between calls.
-/

namespace TaskGrid

/-! ## The history -/

theorem rtake_append_rtake {α : Type} (l r : List α) (n : Nat) :
    (l.rtake n ++ r).rtake n = (l ++ r).rtake n := by
  simp only [List.rtake_eq_reverse_take_reverse, List.reverse_append, List.reverse_reverse,
    List.take_append, List.take_take]
  congr 3
  omega

namespace Schedule

variable {s t : Schedule} {id : Nat} {last : ActionState} {ids : List Nat} {key : WorkerKey}

/-- No more actions are remembered than are to be. -/
def Recollects (s : Schedule) : Prop := s.history.length ≤ s.historyLimit

/-- From one table to another no action ends. -/
structure GoesOn (s t : Schedule) : Prop where
  /-- The same is remembered. -/
  history : t.history = s.history
  /-- As much is to be remembered. -/
  historyLimit : t.historyLimit = s.historyLimit
  /-- Identifiers are not handed out again. -/
  nextId : s.nextId ≤ t.nextId

theorem GoesOn.refl (s : Schedule) : s.GoesOn s := ⟨rfl, rfl, Nat.le_refl _⟩

theorem GoesOn.trans {u : Schedule} (h : s.GoesOn t) (h' : t.GoesOn u) : s.GoesOn u :=
  ⟨h'.history.trans h.history, h'.historyLimit.trans h.historyLimit,
    Nat.le_trans h.nextId h'.nextId⟩

theorem GoesOn.recollects (h : s.GoesOn t) (hs : s.Recollects) : t.Recollects := by
  unfold Recollects
  rw [h.history, h.historyLimit]
  exact hs

theorem goesOn_accept (s : Schedule) (c : Catalog) (task : Submission) (monitor : Monitor) :
    s.GoesOn (s.accept c task monitor).2.1 := by
  unfold accept
  dsimp only
  split <;> exact ⟨rfl, rfl, Nat.le_succ _⟩

theorem goesOn_wake (s : Schedule) (name : String) : s.GoesOn (s.wake name).1 := by
  unfold wake
  split
  · exact .refl s
  · refine List.foldlRecOn (motive := fun r : Schedule × Outbox => s.GoesOn r.1) _ _
      ⟨rfl, rfl, Nat.le_refl _⟩ fun r hr id _ => hr.trans ?_
    unfold wakeOne
    dsimp only
    split
    · exact .refl _
    · split <;> exact ⟨rfl, rfl, Nat.le_refl _⟩

theorem goesOn_markRunning (h : s.markRunning? id = some t) : s.GoesOn t := by
  obtain ⟨x, -, ht⟩ := Option.bind_eq_some_iff.mp h
  split at ht
  · cases ht
    exact ⟨rfl, rfl, Nat.le_refl _⟩
  · cases ht

theorem goesOn_unqueue (s : Schedule) (id : Nat) (names : List String) :
    s.GoesOn (s.unqueue id names) :=
  List.foldlRecOn (motive := fun r : Schedule => s.GoesOn r) names _ ⟨rfl, rfl, Nat.le_refl _⟩
    fun r hr name _ => hr.trans <| by
      unfold unblock
      split <;> exact ⟨rfl, rfl, Nat.le_refl _⟩

theorem historyLimit_remember (s : Schedule) (id : Nat) (last : ActionState) :
    (s.remember id last).historyLimit = s.historyLimit := by
  unfold remember
  split <;> rfl

/-- Of what ended, the latest is remembered. -/
theorem history_remember (h : s.Recollects) (id : Nat) (last : ActionState) :
    (s.remember id last).history = (s.history ++ [(id, last)]).rtake s.historyLimit := by
  have hlength : s.history.length ≤ s.historyLimit := h
  have htotal : (s.history ++ [(id, last)]).length = s.history.length + 1 := by simp
  rw [List.rtake, htotal]
  unfold remember
  split
  · next hzero =>
    have hnil : s.history = [] := List.eq_nil_of_length_eq_zero (by omega)
    rw [hnil, hzero]
    rfl
  · dsimp only
    split
    · rw [show s.history.length + 1 - s.historyLimit = 1 by omega,
        List.drop_append_of_le_length (by omega)]
    · rw [show s.history.length + 1 - s.historyLimit = 0 by omega, List.drop_zero]

theorem recollects_remember (h : s.Recollects) (id : Nat) (last : ActionState) :
    (s.remember id last).Recollects := by
  unfold Recollects
  rw [historyLimit_remember, history_remember h, List.rtake, List.length_drop]
  omega

theorem recollects_conclude (h : s.Recollects) (p : Pool) (x : Entry) (events : List Event)
    (last : ActionState) : (s.conclude p x events last).1.Recollects :=
  recollects_remember ((goesOn_unqueue { s with actions := s.actions.erase x.action.id } _
    _).recollects h) _ _

theorem recollects_abandon (h : s.Recollects) (key : WorkerKey) (ids : List Nat) :
    (s.abandon key ids).1.Recollects :=
  List.foldlRecOn (motive := fun r : Schedule × Outbox => r.1.Recollects) ids _ h
    fun r hr id _ => by
      dsimp only
      unfold abandonOne
      split
      · exact hr
      · dsimp only
        split
        · exact recollects_remember (s := { r.1 with actions := r.1.actions.erase id }) hr _ _
        · exact hr

/-! ## Failing together -/

/-- All actions of a list failed between two tables because their worker is lost. -/
structure Fails (s : Schedule) (ids : List Nat) (t : Schedule) : Prop where
  /-- They are not live any more, and all other actions are as they were. -/
  actions : ∀ id, t.actions.get? id = if id ∈ ids then none else s.actions.get? id
  /-- The same actions are ready. -/
  ready : t.ready = s.ready
  /-- The same actions wait. -/
  blocked : t.blocked = s.blocked
  /-- They are remembered to have failed, as far as the history reaches. -/
  history : t.history =
    (s.history ++ ids.map fun id => (id, ActionState.failed .nodeLost)).rtake s.historyLimit
  /-- As much is to be remembered. -/
  historyLimit : t.historyLimit = s.historyLimit
  /-- The same identifier is next. -/
  nextId : t.nextId = s.nextId

/-- The events that tell that actions failed because their worker is lost, with the monitors. -/
def failures (s : Schedule) (ids : List Nat) : List (Monitor × Event) :=
  ids.filterMap fun id => (s.actions.get? id).map fun x => (x.monitor, .failed id .nodeLost)

/-- One bound action fails. -/
theorem abandonOne_of_bound {x : Entry} (hx : s.actions.get? id = some x)
    (hb : x.binding = some key) (hnew : Event.Kind.failed ∉ x.told) (o : Outbox) :
    (abandonOne key s o id).1 =
        remember { s with actions := s.actions.erase id } id (.failed .nodeLost) ∧
      (abandonOne key s o id).2.events = o.events ++ [(x.monitor, .failed id .nodeLost)] := by
  unfold abandonOne
  rw [hx]
  dsimp only
  rw [if_pos hb]
  refine ⟨rfl, ?_⟩
  dsimp only
  rw [Entry.events_emit, (Entry.emit_of_notMem (e := .failed id .nodeLost) hnew o).1]

theorem fails_remember (h : s.Recollects) (id : Nat) :
    s.Fails [id] (remember { s with actions := s.actions.erase id } id (.failed .nodeLost)) where
  actions i := by
    rw [actions_remember, SortedMap.get?_erase]
    simp only [List.mem_singleton]
  ready := ready_remember _ _ _
  blocked := blocked_remember _ _ _
  history := history_remember (s := { s with actions := s.actions.erase id }) h _ _
  historyLimit := historyLimit_remember _ _ _
  nextId := nextId_remember _ _ _

theorem Fails.trans {u : Schedule} {l r : List Nat} (h : s.Fails l t) (h' : t.Fails r u) :
    s.Fails (l ++ r) u where
  actions i := by
    rw [h'.actions, h.actions]
    by_cases hl : i ∈ l <;> by_cases hr : i ∈ r <;> simp [hl, hr]
  ready := h'.ready.trans h.ready
  blocked := h'.blocked.trans h.blocked
  history := by
    rw [h'.history, h.history, h.historyLimit, rtake_append_rtake, List.append_assoc,
      List.map_append]
  historyLimit := h'.historyLimit.trans h.historyLimit
  nextId := h'.nextId.trans h.nextId

/-- Bound actions that were not told to have failed fail one after the other, and each is told. -/
theorem fails_abandon (hs : s.Recollects) (hnodup : ids.Nodup)
    (hbound : ∀ id ∈ ids, ∃ x, s.actions.get? id = some x ∧ x.binding = some key ∧
      Event.Kind.failed ∉ x.told) :
    s.Fails ids (s.abandon key ids).1 ∧ (s.abandon key ids).2.events = s.failures ids := by
  suffices hfold : ∀ o : Outbox,
      s.Fails ids (ids.foldl (fun r id => abandonOne key r.1 r.2 id) (s, o)).1 ∧
        (ids.foldl (fun r id => abandonOne key r.1 r.2 id) (s, o)).2.events =
          o.events ++ s.failures ids from hfold {}
  intro o
  induction ids generalizing s o with
  | nil =>
    refine ⟨⟨fun i => by simp, rfl, rfl, ?_, rfl, rfl⟩, (List.append_nil _).symm⟩
    rw [List.map_nil, List.append_nil, List.rtake, Nat.sub_eq_zero_of_le hs, List.drop_zero]
    rfl
  | cons id ids ih =>
    obtain ⟨hid, hnodup⟩ := List.nodup_cons.mp hnodup
    obtain ⟨x, hx, hb, hnew⟩ := hbound id List.mem_cons_self
    obtain ⟨htable, hevents⟩ := abandonOne_of_bound hx hb hnew o
    have hone := htable ▸ fails_remember hs id
    have hsame {i : Nat} (hi : i ∈ ids) :
        (abandonOne key s o id).1.actions.get? i = s.actions.get? i := by
      rw [hone.actions, if_neg]
      rintro (he : i ∈ [id])
      exact hid (List.mem_singleton.mp he ▸ hi)
    have hs₁ : (abandonOne key s o id).1.Recollects := by
      rw [htable]
      exact recollects_remember (s := { s with actions := s.actions.erase id }) hs _ _
    obtain ⟨hrest, htold⟩ := ih hs₁ hnodup (fun i hi => by
      rw [hsame hi]
      exact hbound i (List.mem_cons_of_mem _ hi)) (abandonOne key s o id).2
    refine ⟨hone.trans hrest, ?_⟩
    have hfailures : (abandonOne key s o id).1.failures ids = s.failures ids :=
      List.filterMap_congr fun i hi => by rw [hsame hi]
    have hcons : s.failures (id :: ids) =
        (x.monitor, .failed id .nodeLost) :: s.failures ids :=
      List.filterMap_cons_some (by rw [hx]; rfl)
    rw [List.foldl_cons, htold, hevents, hfailures, hcons, List.append_assoc,
      List.singleton_append]

/-- An action that failed is in that state, unless so many failed after it that it is forgotten. -/
theorem Fails.stateOf? (h : s.Fails ids t) (hnodup : ids.Nodup) {l r : List Nat}
    (hids : ids = l ++ id :: r) :
    t.stateOf? id = if r.length < s.historyLimit then some (.failed .nodeLost) else none := by
  have hgone : t.actions.get? id = none := by
    rw [h.actions, hids]
    simp
  have hid : id ∉ r := by
    rw [hids] at hnodup
    exact (List.nodup_cons.mp (List.nodup_append.mp hnodup).2.1).1
  have hother (n : Nat) : ((r.map fun id => (id, ActionState.failed .nodeLost)).reverse.take
      n).find? (fun e => e.1 = id) = none := by
    refine List.find?_eq_none.mpr fun e he => ?_
    obtain ⟨i, hi, rfl⟩ := List.mem_map.mp (List.mem_reverse.mp (List.mem_of_mem_take he))
    simpa using fun hi' : i = id => hid (hi' ▸ hi)
  rw [Schedule.stateOf?, hgone, Option.map_none, Option.none_or, ended?, h.history, hids,
    List.rtake_eq_reverse_take_reverse, List.reverse_reverse, List.map_append, List.map_cons,
    List.reverse_append, List.reverse_append, List.reverse_cons, List.append_assoc,
    List.append_assoc, List.take_append, List.find?_append, hother, Option.none_or,
    List.length_reverse, List.length_map, List.singleton_append]
  split
  · next hlt =>
    obtain ⟨n, hn⟩ := Nat.exists_eq_add_of_lt hlt
    rw [show s.historyLimit - r.length = n + 1 by omega]
    simp
  · next hle =>
    rw [show s.historyLimit - r.length = 0 by omega]
    rfl

end Schedule

/-! ## What is over stays over -/

namespace Pass

theorem goesOn_bind (p : Pass) (x : Candidate) (free : Capacity) (pool : Pool) :
    p.schedule.GoesOn (p.bind x free pool).schedule := by
  unfold bind
  dsimp only
  split <;> exact ⟨rfl, rfl, Nat.le_refl _⟩

theorem goesOn_reportOne (views : List WorkerView) (s : Schedule) (o : Outbox) (id : Nat) :
    s.GoesOn (reportOne views s o id).1 := by
  unfold reportOne
  split
  · exact .refl s
  · dsimp only
    split
    · exact .refl s
    · exact ⟨rfl, rfl, Nat.le_refl _⟩

theorem stable_goesOn (s : Schedule) : Stable fun t _ => s.GoesOn t where
  disturb _ _ h := h
  bind {p x free pool} h _ _ := h.trans (p.goesOn_bind x free pool)
  report views o id h := h.trans (goesOn_reportOne views _ o id)

end Pass

namespace World

variable {w w' : World} {d : Deed} {s : Schedule} {i : Item} {l : List Item} {t : List Moment}

theorem goesOn_passed (w : World) : w.schedule.GoesOn w.passed.schedule :=
  (Pass.stable_goesOn w.schedule).run w.policy (.refl _)

/-- No deed remembers more actions than are to be. -/
theorem Moves.recollects (h : w.Moves d s) (hw : w.schedule.Recollects) : s.Recollects := by
  cases h with
  | same _ _ => exact hw
  | pass => exact w.goesOn_passed.recollects hw
  | wake name => exact (w.schedule.goesOn_wake name).recollects hw
  | submit task monitor => exact (w.schedule.goesOn_accept w.catalog task monitor).recollects hw
  | conclude ending live => exact Schedule.recollects_conclude hw _ _ _ _
  | run marked => exact (Schedule.goesOn_markRunning marked).recollects hw
  | fail key ids => exact Schedule.recollects_abandon hw key ids

/-- No deed hands an identifier out again, whatever happens to the pool meanwhile. -/
theorem Moves.nextId_mono (h : w.Moves d s) : w.schedule.nextId ≤ s.nextId := by
  cases h with
  | same _ _ => exact Nat.le_refl _
  | pass => exact w.goesOn_passed.nextId
  | wake name => exact (w.schedule.goesOn_wake name).nextId
  | submit task monitor => exact (w.schedule.goesOn_accept w.catalog task monitor).nextId
  | conclude ending live => exact Nat.le_of_eq (Schedule.conclude_frame _ _ _ _ _).2.2.symm
  | run marked => exact (Schedule.goesOn_markRunning marked).nextId
  | fail key ids => exact Nat.le_of_eq (Schedule.nextId_abandon _ key ids).symm

/-- An action of the past: it was accepted once and is not live. -/
def Past (w : World) (id : Nat) : Prop :=
  id < w.schedule.nextId ∧ w.schedule.actions.get? id = none

theorem past_carryOut {id : Nat} (h : w.Past id) (i : Item) : (w.carryOut i).1.Past id := by
  have hmoves := (w.does_carryOut i).moves
  refine ⟨Nat.lt_of_lt_of_le h.1 hmoves.nextId_mono, ?_⟩
  cases hy : (w.carryOut i).1.schedule.actions.get? id with
  | none => rfl
  | some y =>
    rcases hmoves.live_back hy with ⟨x, hx⟩ | hnew
    · rw [h.2] at hx
      cases hx
    · exact absurd hnew (Nat.ne_of_lt h.1)

/-- A command is refused, which is all that it leads to. -/
def Refuses (w : World) (c : Command) (f : Fault) : Prop :=
  ∀ token, w.carryOut (.obey token c) = (w, [.reply token (.refused f)])

/-- Whatever is reported about an action is refused. -/
structure Disowns (w : World) (id : Nat) : Prop where
  /-- That it finished. -/
  complete : ∀ outputs, w.Refuses (.complete id outputs) (.unknownAction id)
  /-- That it failed. -/
  fail : ∀ reason, w.Refuses (.fail id reason) (.unknownAction id)
  /-- That it is being executed. -/
  markRunning : w.Refuses (.markRunning id) (.unknownAction id)

theorem Past.disowns {id : Nat} (h : w.Past id) : w.Disowns id where
  complete outputs token := by
    show w.complete token id outputs = _
    rw [World.complete, h.2]
  fail reason token := by
    show w.fail token id reason = _
    rw [World.fail, h.2]
  markRunning token := by
    show w.markRunning token id = _
    rw [World.markRunning, Schedule.markRunning?, h.2]
    rfl

/-- The loss of a worker that is not registered is refused. -/
theorem refuses_loseWorker {key : WorkerKey} (h : w.pool.worker? key = none) :
    w.Refuses (.loseWorker key) (.unknownResource key.text) := fun token => by
  show w.loseWorker token key false = _
  rw [loseWorker, Pool.lose?, h]
  rfl

end World

/-! ## Items that only tell -/

namespace Item

/-- Whether an item only tells something, where no session is open. -/
def isTelling : Item → Bool
  | .note _ | .prompt _ | .deliver .. | .report .. | .tellCapacity .. | .tellRemoved ..
  | .closeSession _ | .endSession _ => true
  | .tellHook _ r => r.forced
  | _ => false

/-- What monitors hear when an item is carried out with all that it leads to, if it only tells. -/
def tells : Item → List (Monitor × Event)
  | .note n => n.delivery?.toList
  | .deliver m e => m.hearers.map fun a => (a, e)
  | _ => []

/-- What was collected is only told if nobody can leave. -/
theorem telling_ofOutbox {o : Outbox} (h : o.drained = []) :
    (∀ j ∈ ofOutbox o, j.isTelling = true) ∧
      (ofOutbox o).flatMap tells = o.events.flatMap fun x => x.1.hearers.map fun a => (a, x.2) := by
  unfold ofOutbox
  rw [h, List.map_nil]
  refine ⟨fun j hj => ?_, ?_⟩
  · rcases List.mem_append.mp hj with hj | hj
    · obtain ⟨x, -, rfl⟩ := List.mem_map.mp hj
      rfl
    · rw [List.mem_singleton.mp hj]
      rfl
  · rw [List.flatMap_append, List.flatMap_map]
    exact List.append_nil _

/-- The record of a loss is only told. -/
theorem telling_ofHooks {d : Pool.Departure} (h : d.removed.forced = true) :
    (∀ j ∈ ofHooks d, j.isTelling = true) ∧ (ofHooks d).flatMap tells = [] := by
  unfold ofHooks
  refine ⟨fun j hj => ?_, ?_⟩
  · obtain ⟨hook, -, rfl⟩ := List.mem_map.mp hj
    exact h
  · rw [List.flatMap_map]
    exact List.flatMap_eq_nil_iff.mpr fun _ _ => rfl

end Item

namespace World

variable {w w' : World} {i : Item} {l : List Item} {t : List Moment}

/-- An event is told to a monitor and then to those to whom it passes it on. -/
theorem tells_deliver (w : World) (m : Monitor) (e : Event) :
    (m, e) :: (w.deliver m e).2.flatMap Item.tells = (Item.deliver m e).tells := by
  unfold deliver
  cases m with
  | session app inner =>
    have hclose : (if e.isTerminal then [Item.closeSession app] else []).flatMap Item.tells =
        [] := by split <;> rfl
    dsimp only
    rw [List.flatMap_cons, hclose, List.append_nil]
    rfl
  | mailbox id => dsimp only; split <;> rfl
  | _ => rfl

/-- Where no session is open, what only tells leaves actions and workers as they are. -/
theorem telling_carryOut (hi : i.isTelling = true) (hw : w.Sessionless) :
    (w.carryOut i).1.schedule = w.schedule ∧ (w.carryOut i).1.pool = w.pool ∧
      (∀ j ∈ (w.carryOut i).2, j.isTelling = true) ∧
      i.delivery?.toList ++ (w.carryOut i).2.flatMap Item.tells = i.tells := by
  have hlast {u : World} (h : w.Still u) : u.schedule = w.schedule ∧ u.pool = w.pool ∧
      (∀ j ∈ ([] : List Item), j.isTelling = true) ∧ ([] : List (Monitor × Event)) = [] :=
    ⟨h.schedule, h.pool, List.forall_mem_nil _, rfl⟩
  cases i with
  | note n => exact ⟨rfl, rfl, List.forall_mem_nil _, List.append_nil _⟩
  | prompt p => exact hlast (.refl w)
  | report a c => exact hlast (w.still_report a c)
  | tellCapacity key free => exact hlast (w.still_report _ _)
  | tellRemoved r last => exact hlast (w.still_tellRemoved r last)
  | deliver m e =>
    obtain ⟨hschedule, hpool, -, -⟩ := w.deliver_frame m e
    refine ⟨hschedule, hpool, fun j hj => ?_, w.tells_deliver m e⟩
    rcases mem_deliver hj with ⟨p, rfl⟩ | ⟨app, inner, -, rfl | ⟨-, rfl⟩⟩ <;> rfl
  | tellHook hook r =>
    obtain ⟨hschedule, hpool, -, -⟩ := w.tellHook_frame hook r
    have hforced : r.forced = true := hi
    have hnil : (w.tellHook hook r).2 = [] := by
      unfold tellHook
      dsimp only
      split
      · rfl
      · rw [hforced]
        simp
    show (w.tellHook hook r).1.schedule = _ ∧ (w.tellHook hook r).1.pool = _ ∧
      (∀ j ∈ (w.tellHook hook r).2, _) ∧ _ ++ (w.tellHook hook r).2.flatMap _ = _
    rw [hnil]
    exact ⟨hschedule, hpool, List.forall_mem_nil _, rfl⟩
  | closeSession app =>
    dsimp only [carryOut]
    unfold closeSession
    split
    · exact hlast (.refl w)
    · exact ⟨rfl, rfl, fun j hj => List.mem_singleton.mp hj ▸ rfl, rfl⟩
  | endSession app =>
    have hclosed : w.agent.bind (·.finish? app) = none := by
      cases hs : w.agent with
      | none => rfl
      | some s =>
        have hnone := hw app
        rw [sessions, hs, Option.getD_some, Sessions.isOpen, SortedMap.contains_eq_false_iff]
          at hnone
        rw [Option.bind_some, Sessions.finish?, hnone, Option.map_none]
    dsimp only [carryOut]
    unfold endSession
    rw [hclosed]
    exact hlast (.refl w)
  | _ => cases hi

/-- So does all that it leads to, and monitors hear what there is to hear. -/
theorem Completes.telling (h : w.Completes l t w') (hl : ∀ i ∈ l, i.isTelling = true)
    (hw : w.Sessionless) :
    w'.schedule = w.schedule ∧ w'.pool = w.pool ∧ w'.Sessionless ∧
      w'.deliveries = w.deliveries ++ l.flatMap Item.tells := by
  induction h with
  | nil w => exact ⟨rfl, rfl, hw, (List.append_nil _).symm⟩
  | @cons w v v' i l s₁ s₂ _ _ ih₁ ih₂ =>
    have hi := hl i List.mem_cons_self
    obtain ⟨hschedule, hpool, hitems, htells⟩ := telling_carryOut hi hw
    have hnext : (w.carryOut i).1.Sessionless := sessionless_carryOut hw fun token c he => by
      subst he
      cases hi
    obtain ⟨hschedule₁, hpool₁, hw₁, htold₁⟩ := ih₁ hitems hnext
    obtain ⟨hschedule₂, hpool₂, hw₂, htold₂⟩ :=
      ih₂ (fun j hj => hl j (List.mem_cons_of_mem i hj)) hw₁
    refine ⟨hschedule₂.trans (hschedule₁.trans hschedule), hpool₂.trans (hpool₁.trans hpool), hw₂,
      ?_⟩
    rw [htold₂, htold₁, deliveries_carryOut, List.append_assoc w.deliveries, htells,
      List.append_assoc, List.flatMap_cons]

end World

/-! ## The call -/

/-- What those hear who hear of actions that fail because their worker is lost. -/
def Schedule.lossNotices (s : Schedule) (ids : List Nat) : List (Monitor × Event) :=
  (s.failures ids).flatMap fun x => x.1.hearers.map fun a => (a, x.2)

namespace World

variable {w w' : World} {key : WorkerKey}

/-- The worker of a key was lost between two worlds, and with it the actions `ids` failed. -/
structure Loses (w : World) (token : Nat) (key : WorkerKey) (ids : List Nat) (w' : World) :
    Prop where
  /-- The answer lists them. -/
  answer : ∃ removed : RemovedWorker, removed.key = key ∧ removed.forced = true ∧
    w'.log.head? = some (.replied token (.pool (.lost ⟨ids, removed⟩)))
  /-- They are listed in increasing order. -/
  increasing : ids.Pairwise (· < ·)
  /-- They are the actions that were bound to the worker. -/
  bound : ∀ id, id ∈ ids ↔ w.schedule.bindingOf? id = some key
  /-- They are not live any more, and all other actions are as they were. -/
  table : w.schedule.Fails ids w'.schedule
  /-- Their state is that they failed, unless so many failed after them that they are forgotten. -/
  state : ∀ {l id r}, ids = l ++ id :: r → w'.schedule.stateOf? id =
    if r.length < w.schedule.historyLimit then some (.failed .nodeLost) else none
  /-- Those who hear of them are told once of each that it failed, and nobody is told anything
  else. -/
  told : w'.deliveries = w.deliveries ++ w.schedule.lossNotices ids
  /-- The worker is gone, and all other workers are as they were. -/
  workers : ∀ k, w'.pool.worker? k = if k = key then none else w.pool.worker? k
  /-- That it is lost again is refused. -/
  again : w'.Refuses (.loseWorker key) (.unknownResource key.text)

/-- Items of which the last one answers a command are completed by the answer. -/
theorem Completes.answers {l : List Item} {t : List Moment} {token : Nat} {r : Reply}
    (h : w.Completes (l ++ [.reply token r]) t w') :
    w'.log.head? = some (.replied token r) := by
  obtain ⟨_, v, _, -, hlast, -⟩ := h.of_append
  obtain ⟨_, hdone, -⟩ := hlast.of_single
  obtain ⟨rfl, -⟩ := hdone.of_nil
  rfl

/-- The actions that hold something on a worker are those that are bound there, where nothing is
owed. -/
theorem mem_bound_iff (ha : Agrees w.schedule w.pool []) {v : Worker}
    (hv : w.pool.worker? key = some v) (id : Nat) :
    id ∈ v.bound ↔ w.schedule.bindingOf? id = some key := by
  rw [Worker.bound, SortedMap.mem_keys_iff, SortedMap.contains_iff, Schedule.bindingOf?_eq]
  constructor
  · rintro ⟨need, hneed⟩
    obtain ⟨x, hx, hb, -⟩ := ha.held hv hneed
    rw [hx]
    exact hb
  · intro hid
    obtain ⟨x, hx, hb⟩ := Option.bind_eq_some_iff.mp hid
    rcases ha.bound hx hb with ⟨u, need, hu, hneed⟩ | ⟨ids, hj, -⟩
    · rw [hv] at hu
      exact ⟨need, Option.some_inj.mp hu ▸ hneed⟩
    · cases hj

/-- The actions that are bound to a lost worker fail and are told so. -/
theorem failBound_of_bound (w : World) (key : WorkerKey) {ids : List Nat}
    (hs : w.schedule.Recollects) (hnodup : ids.Nodup)
    (hbound : ∀ id ∈ ids, ∃ x, w.schedule.actions.get? id = some x ∧ x.binding = some key ∧
      Event.Kind.failed ∉ x.told) :
    w.schedule.Fails ids (w.failBound key ids).1.schedule ∧
      (∀ j ∈ (w.failBound key ids).2, j.isTelling = true) ∧
      (w.failBound key ids).2.flatMap Item.tells = w.schedule.lossNotices ids := by
  obtain ⟨hfails, hevents⟩ := Schedule.fails_abandon hs hnodup hbound
  have hdrained := w.schedule.drained_abandon key ids
  unfold failBound
  generalize w.schedule.abandon key ids = r at *
  obtain ⟨s, o⟩ := r
  obtain ⟨htelling, htells⟩ := Item.telling_ofOutbox
    (o := { o with capacity := o.capacity ++ [(key, .empty)] }) hdrained
  refine ⟨hfails, htelling, htells.trans ?_⟩
  rw [Schedule.lossNotices, ← hevents]

/-- What follows when a worker left that was lost: its hooks are told, the actions that were bound
to it fail, and then the rest is told. -/
def lossItems (token : Nat) (key : WorkerKey) (d : Pool.Departure) : List Item :=
  Item.ofHooks d ++ ([.failBound key d.bound] ++ ([.tellRemoved d.removed false] ++
    [.reply token (.pool (.lost ⟨d.bound, d.removed⟩))]))

theorem carryOut_loseWorker {d : Pool.Departure} (h : w.pool.lose? w.catalog key = some d)
    (token : Nat) : w.carryOut (.obey token (.loseWorker key)) =
      ((w.depart d).1, lossItems token key d) := by
  show w.loseWorker token key false = _
  rw [loseWorker, h]
  simp [World.depart, lossItems]

/-- The bound actions fail, and nothing else changes. -/
theorem Completes.lost {d : Pool.Departure} {token : Nat} {t : List Moment}
    (h : w.Completes (lossItems token key d) t w') (hforced : d.removed.forced = true)
    (hclosed : w.Sessionless) (hs : w.schedule.Recollects) (hnodup : d.bound.Nodup)
    (hbound : ∀ id ∈ d.bound, ∃ x, w.schedule.actions.get? id = some x ∧
      x.binding = some key ∧ Event.Kind.failed ∉ x.told) :
    w.schedule.Fails d.bound w'.schedule ∧ w'.pool = w.pool ∧
      w'.deliveries = w.deliveries ++ w.schedule.lossNotices d.bound ∧
      w'.log.head? = some (.replied token (.pool (.lost ⟨d.bound, d.removed⟩))) := by
  obtain ⟨_, v₁, _, hhooks, hrest, -⟩ := h.of_append
  obtain ⟨_, v₂, _, hfail, hlast, -⟩ := hrest.of_append
  obtain ⟨_, htold, -⟩ := hfail.of_single
  -- the hooks
  obtain ⟨htelling, hsilent⟩ := Item.telling_ofHooks hforced
  obtain ⟨hschedule₁, hpool₁, hclosed₁, htold₁⟩ := hhooks.telling htelling hclosed
  rw [hsilent, List.append_nil] at htold₁
  -- the actions
  rw [← hschedule₁] at hs hbound
  obtain ⟨hfails, htelling, htells⟩ := v₁.failBound_of_bound key hs hnodup hbound
  obtain ⟨hschedule₂, hpool₂, hclosed₂, htold₂⟩ := htold.telling htelling hclosed₁
  have htold₂ : v₂.deliveries = v₁.deliveries ++ v₁.schedule.lossNotices d.bound :=
    htold₂.trans (congrArg _ htells)
  -- the rest
  obtain ⟨hschedule₃, hpool₃, -, htold₃⟩ := hlast.telling
    (by simp [Item.isTelling, Item.reply]) hclosed₂
  refine ⟨?_, hpool₃.trans (hpool₂.trans hpool₁), ?_, hlast.answers⟩
  · rw [hschedule₃, hschedule₂, ← hschedule₁]
    exact hfails
  · rw [htold₃, htold₂, htold₁, hschedule₁]
    exact List.append_nil _

/-- Where table and pool agree and no failure was told yet, a registered worker is lost with
exactly the actions that are bound to it. -/
theorem exists_loses (ha : Agrees w.schedule w.pool []) (hcalm : w.disturbances = [])
    (hs : w.schedule.Recollects) (hclosed : w.Sessionless)
    (hnew : ∀ {id x}, w.schedule.actions.get? id = some x → Event.Kind.failed ∉ x.told)
    (token : Nat) {v : Worker} (hv : w.pool.worker? key = some v) :
    ∃ t w', (Machine.asked w token (.loseWorker key)).Returns t w' ∧
      w.Loses token key v.bound w' := by
  obtain ⟨t, w', hcall, -⟩ := w.exists_completes hcalm (.obey token (.loseWorker key))
  refine ⟨t, w', hcall.advance [], ?_⟩
  obtain ⟨_, hall, -⟩ := hcall.of_single
  rw [carryOut_loseWorker (Pool.lose?_eq_some_iff.mpr ⟨v, hv, rfl⟩)] at hall
  have hnodup : v.bound.Nodup := v.reservations.nodup_keys
  have hmem := mem_bound_iff ha hv
  have hlive : ∀ id ∈ v.bound, ∃ x, w.schedule.actions.get? id = some x ∧
      x.binding = some key ∧ Event.Kind.failed ∉ x.told := fun id hid => by
    obtain ⟨x, hx, hb⟩ := Option.bind_eq_some_iff.mp ((hmem id).mp hid)
    exact ⟨x, hx, hb, hnew hx⟩
  obtain ⟨htable, hpool, htold, hanswer⟩ := hall.lost rfl hclosed hs hnodup hlive
  have hworkers : ∀ k, w'.pool.worker? k = if k = key then none else w.pool.worker? k :=
    hpool ▸ Pool.worker?_of_erase (Pool.workers_depart w.pool w.catalog key v true)
  exact {
    answer := ⟨_, rfl, rfl, hanswer⟩
    increasing := List.pairwise_map.mpr
      (v.reservations.sorted.imp fun h => Nat.compare_eq_lt.mp h)
    bound := hmem
    table := htable
    state := fun hids => htable.stateOf? hnodup hids
    told := htold
    workers := hworkers
    again := refuses_loseWorker ((hworkers key).trans (if_pos rfl)) }

end World

/-! ## Every loss -/

/-- Clients listen and do not answer, and commands speak neither to the agent nor to the pool behind
the scheduler. -/
structure Conduct.Agentless (rule : Conduct) : Prop where
  /-- Clients do not answer. -/
  listens : ∀ {c}, ¬ rule.answers c
  /-- Nobody changes the pool behind the scheduler. -/
  spares : ∀ {c}, rule.asks c → c.surface ≠ .pool
  /-- Nobody speaks to the agent. -/
  leaves : ∀ {c}, rule.asks c → c.surface ≠ .agent

theorem Conduct.Agentless.attentive {rule : Conduct} (h : rule.Agentless) : rule.Attentive where
  listens := h.listens
  spares := h.spares
  genuine hc _ _ he := h.leaves (he ▸ hc) rfl

namespace Machine

variable {rule : Conduct} {policy : Policy} {localNodes : List String} {withholds : Bool}
  {limit : Nat} {t : List Moment} {m : Machine} {w w₀ : World}

/-- In every run no more actions are remembered than are to be. -/
theorem Course.recollects (h : Course rule w₀ t m) (hw : w₀.schedule.Recollects) :
    m.world.schedule.Recollects := by
  induction h with
  | start => exact hw
  | ask _ _ _ ih => exact ih
  | answer _ _ _ ih => exact ih
  | @item _ w i _ _ ih => exact (w.does_carryOut i).moves.recollects ih

/-- What is over stays over in every run. -/
theorem Course.past (h : Course rule w₀ t m) {id : Nat} (hid : w₀.Past id) : m.world.Past id := by
  induction h with
  | start => exact hid
  | ask _ _ _ ih => exact ih
  | answer _ _ _ ih => exact ih
  | item _ ih => exact World.past_carryOut ih _

/-- Where nobody speaks to the agent, no session is open. -/
theorem Course.sessionless (hrule : rule.Agentless)
    (h : Course rule (World.fresh policy localNodes withholds limit) t m) :
    m.world.Sessionless := by
  induction h with
  | start => exact fun _ => rfl
  | ask _ _ _ ih => exact ih
  | answer _ _ _ ih => exact ih
  | @item _ w i _ hc ih =>
    refine World.sessionless_carryOut ih ?_
    rintro token c rfl
    exact hc.allows (P := fun c => c.surface ≠ .agent)
      ⟨agrees_empty limit rfl, rfl, fun _ _ hj => by cases hj⟩ hrule.attentive.sparesPool
      hrule.leaves (fun ha => absurd ha hrule.listens) List.mem_cons_self

/-- No live action was told its end. -/
theorem Course.untold (hrule : rule.Attentive)
    (h : Course rule (World.fresh policy localNodes withholds limit) t m) {id : Nat} {x : Entry}
    (hx : m.world.schedule.actions.get? id = some x) {e : Event} (he : e.isTerminal = true) :
    e.kind ∉ x.told := by
  cases (h.attended hrule).recorded id with
  | unheard _ gone _ =>
    rw [hx] at gone
    cases gone
  | known _ _ _ _ entry _ =>
    obtain ⟨-, hfollows⟩ := entry x hx
    exact fun hk => hfollows.opening.end_notMem he ((hfollows.told _).mp hk)

/-- Between calls, whatever was asked of the scheduler and the catalog, the loss of a worker that is
not registered is refused.  The loss of a registered worker fails exactly the actions that are bound
to it and touches neither another action nor another worker; and whatever happens afterwards, what
is reported about one of those actions is refused and changes nothing. -/
theorem Course.loses (hrule : rule.Agentless)
    (h : Course rule (World.fresh policy localNodes withholds limit) t ⟨w, []⟩)
    (key : WorkerKey) :
    (w.pool.worker? key = none → w.Refuses (.loseWorker key) (.unknownResource key.text)) ∧
      ∀ v, w.pool.worker? key = some v → ∀ token, ∃ s w',
        (asked w token (.loseWorker key)).Returns s w' ∧ w.Loses token key v.bound w' ∧
          ∀ rule' t' m, Course rule' w' t' m → ∀ id ∈ v.bound, m.world.Disowns id := by
  refine ⟨World.refuses_loseWorker, fun v hv token => ?_⟩
  have hag := h.inAgreement hrule.attentive.sparesPool
  obtain ⟨s, w', hreturns, hloses⟩ := World.exists_loses hag.agrees hag.calm
    (h.recollects (Nat.zero_le limit)) (h.sessionless hrule)
    (fun hx => h.untold hrule.attentive hx (e := .failed 0 .nodeLost) rfl) token hv
  refine ⟨s, w', hreturns, hloses, fun rule' t' m hlater id hid => (hlater.past ?_).disowns⟩
  obtain ⟨x, hx, -⟩ := Option.bind_eq_some_iff.mp ((hloses.bound id).mp hid)
  refine ⟨hloses.table.nextId ▸ hag.agrees.sound.old
    (Schedule.standing?_eq_some_iff.mpr ⟨x, hx, rfl⟩), ?_⟩
  rw [hloses.table.actions, if_pos hid]

/-! ### A worker with two actions, and one that waits -/

/-- A second action takes the other unit of the worker. -/
def crowding : Machine :=
  asked (submitting.advance 8).world 2 (.submit (.single (.cpus 1) "h") (.client 7 "c"))

/-- A third one finds nothing free. -/
def overcrowding : Machine :=
  asked (crowding.advance 11).world 3 (.submit (.single (.cpus 1) "h") .silent)

theorem course_overcrowding :
    Course (.quiet fun c => c.surface = .scheduler ∨ c.surface = .catalog)
      (.fresh .fifo [] false 8)
      (moments 7 overcrowding ++ (moments 11 crowding ++ (moments 8 submitting ++
        (moments 5 offering ++ [])))) ⟨(overcrowding.advance 7).world, []⟩ :=
  (((Course.start.call 0 5 (Or.inl rfl) (by decide +kernel)).call 1 8 (Or.inl rfl)
    (by decide +kernel)).call 2 11 (Or.inl rfl) (by decide +kernel)).call 3 7 (Or.inl rfl)
    (by decide +kernel)

theorem agentless_quiet :
    (Conduct.quiet fun c => c.surface = .scheduler ∨ c.surface = .catalog).Agentless where
  listens := id
  spares {c} hc hp := by
    have hs : c.surface = .scheduler ∨ c.surface = .catalog := hc
    rw [hp] at hs
    exact hs.elim nofun nofun
  leaves {c} hc hp := by
    have hs : c.surface = .scheduler ∨ c.surface = .catalog := hc
    rw [hp] at hs
    exact hs.elim nofun nofun

/-- The two actions that are bound to the worker fail, and their client is told of the one of them
that it submitted.  The third action is ready before and afterwards. -/
theorem loses_overcrowding :
    let w := (overcrowding.advance 7).world
    w.schedule.lossNotices [1, 2] =
        [(.silent, .failed 1 .nodeLost), (.client 7 "c", .failed 2 .nodeLost)] ∧
      w.schedule.stateOf? 3 = some .ready ∧
      ∃ s w', (asked w 4 (.loseWorker (.permanent "n"))).Returns s w' ∧
        w.Loses 4 (.permanent "n") [1, 2] w' ∧
        ∀ rule' t' m, Course rule' w' t' m → ∀ id ∈ [1, 2], m.world.Disowns id := by
  have hbound : ((overcrowding.advance 7).world.pool.worker? (.permanent "n")).map Worker.bound =
      some [1, 2] := by decide +kernel
  obtain ⟨v, hv, hids⟩ := Option.map_eq_some_iff.mp hbound
  obtain ⟨-, hloses⟩ := Course.loses agentless_quiet course_overcrowding (.permanent "n")
  exact ⟨by decide +kernel, by decide +kernel, hids ▸ hloses v hv 4⟩

end Machine

end TaskGrid
