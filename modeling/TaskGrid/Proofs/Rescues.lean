import Mathlib.Algebra.Order.BigOperators.Group.List
import Mathlib.Algebra.Order.Ring.Nat
import TaskGrid.Proofs.Draining
import TaskGrid.Proofs.Observers

/-!
# How often a rescue order is handed over

When the last worker of a host leaves, its record lists the data that have to be saved, and the
agent hands these orders to the sink.  It hands over those of a lost worker itself.  For a worker
that is asked to leave it gives a hook with each request, and every hook that is told the record
hands the orders over.  So the orders of a worker that was asked more than once are handed over more
than once: once for each request.

The invariant (`Rescuing`) balances what the sink was handed, with what the agenda still hands to
it, against the departures of the course.

* `World.handed`, `Item.orders`: what the sink was handed, and what an item hands to it.
* `Pool.Departure.handings`: what is handed over because of a departure.
* `World.handsOn_carryOut`: what an item hands over and has handed over.
* `HandsOverOnce`, `Machine.Course.handsOver`: how often orders are handed over in a run.
-/

namespace TaskGrid

/-- The orders that a notice says the sink was handed. -/
def Notice.orders : Notice → List RescueOrder
  | .handedOver _ orders => orders
  | _ => []

/-- The orders that the sink was handed, oldest first. -/
def World.handed (w : World) : List RescueOrder := w.log.reverse.flatMap Notice.orders

/-- The orders that an item hands to the sink. -/
def Item.orders : Item → List RescueOrder
  | .note n => n.orders
  | .handOver orders => orders
  | .tellHook .agent r => if r.forced then [] else r.rescues
  | _ => []

/-- The orders that the sink is handed because of a departure: by each hook of a worker that was
asked to leave, and by the agent itself if it gave the worker up. -/
def Pool.Departure.handings (d : Pool.Departure) : List RescueOrder :=
  d.hooks.flatMap (fun h => (Item.tellHook h d.removed).orders) ++
    if d.removed.forced then d.removed.rescues else []

/-- How often the worker registered as `seq` was asked to leave. -/
def timesAsked (t : List Moment) (seq : Nat) : Nat := t.countP fun x => x.asksToLeave seq

/-- The sink was handed every order of those who left once, and nothing else. -/
def HandsOverOnce (t : List Moment) (w : World) : Prop :=
  w.handed.Perm ((departures t).flatMap fun r => r.2.removed.rescues)

/-- Whether an item is the command to dismiss the agent. -/
def Item.dismisses : Item → Bool
  | .obey _ .dismissAgent => true
  | _ => false

/-- Whether a command leaves workers that leave, and the sink, to the agent, and the agent in
place. -/
def Command.leavesToAgent : Command → Bool
  | .removeWorker .. | .loseWorker _ | .pool _ => false
  | .dispatch _ | .dismissAgent => false
  | _ => true

/-! ## What notices and items say -/

namespace World

variable {w w' : World}

@[simp] theorem handed_note (w : World) (n : Notice) :
    (w.note n).handed = w.handed ++ n.orders := by
  simp [handed]

theorem handed_eq (w : World) :
    w.handed = (w.log.filter Notice.isOfficial).reverse.flatMap Notice.orders := by
  unfold handed
  induction w.log with
  | nil => rfl
  | cons n l ih =>
    rw [List.reverse_cons, List.flatMap_append, ih]
    cases n <;> simp [List.filter_cons, Notice.isOfficial, Notice.orders]

/-- The sink was handed what it had been handed before. -/
theorem Unheard.handed (h : w.Unheard w') : w'.handed = w.handed := by
  rw [handed_eq, h.official, ← handed_eq]

end World

/-- What mute items hand over is what hooks hand over. -/
theorem Item.orders_of_mute {l : List Item} (h : l.all Item.isMute = true) :
    l.flatMap Item.orders =
      (Item.hookings l).flatMap fun x => (Item.tellHook x.1 x.2).orders := by
  induction l with
  | nil => rfl
  | cons i l ih =>
    rw [List.all_cons, Bool.and_eq_true] at h
    rw [List.flatMap_cons, ih h.2, Item.hookings_cons, List.flatMap_append]
    congr 1
    have hi := h.1
    cases i with
    | tellHook hook r => exact (List.append_nil _).symm
    | handOver orders => cases hi
    | note n => cases n <;> first | rfl | cases hi
    | _ => rfl

namespace Moment

variable {x : Moment} {v : Worker} {d : Pool.Departure}

/-- A worker leaves as it is asked to, because it is lost, or because it is drained. -/
theorem cases_of_departure? (h : x.departure? = some (v, d)) :
    (∃ key hook, x.deed = .remove key hook ∧ x.request? = some (v, hook) ∧
      d.removed.forced = false) ∨
    (∃ key, x.deed = .lose key ∧ d.removed.forced = true) ∨
    ∃ key, x.deed = .retire key v.seq ∧ x.world.pool.worker? key = some v ∧
      d.removed.forced = false := by
  obtain ⟨⟨key, d'⟩, hleft, hd⟩ := Option.bind_eq_some_iff.mp h
  obtain ⟨v', hv, he⟩ := Option.map_eq_some_iff.mp hd
  cases he
  cases hdeed : x.deed with
  | remove k hook =>
    rw [left?_of_remove hdeed] at hleft
    split at hleft
    · next d'' hr =>
      cases hleft
      obtain ⟨u, hu, -, rfl⟩ := Pool.requestRemoval?_eq_left_iff.mp hr
      exact .inl ⟨key, hook, rfl, request?_of_remove hdeed hv, rfl⟩
    · cases hleft
  | lose k =>
    rw [left?_of_lose hdeed] at hleft
    obtain ⟨d'', hl, he⟩ := Option.map_eq_some_iff.mp hleft
    cases he
    obtain ⟨u, hu, rfl⟩ := Pool.lose?_eq_some_iff.mp hl
    exact .inr (.inl ⟨key, rfl, rfl⟩)
  | retire k seq =>
    rw [left?_of_retire hdeed] at hleft
    obtain ⟨d'', hl, he⟩ := Option.map_eq_some_iff.mp hleft
    cases he
    obtain ⟨u, hu, hseq, rfl⟩ := Pool.retire?_eq_some_iff.mp hl
    rw [hv] at hu
    cases hu
    exact .inr (.inr ⟨key, hseq ▸ rfl, hv, rfl⟩)
  | _ =>
    unfold left? at hleft
    rw [hdeed] at hleft
    cases hleft

/-- What a deed says of who does it, where workers that leave are left to the agent. -/
def ByAgent (x : Moment) : Deed → Prop
  | .remove _ hook => hook = some .agent
  | .lose _ => x.item.isDiscreet = false
  | _ => True

theorem byAgent_offered (x : Moment) : x.ByAgent x.offered := by
  unfold offered
  cases x.offer? <;> trivial

theorem byAgent_withKey (x : Moment) (name : String) (app : Option ApplicationId)
    {f : WorkerKey → Deed} (h : ∀ key, x.ByAgent (f key)) : x.ByAgent (x.withKey name app f) := by
  unfold withKey
  cases x.world.agent.bind fun s => (s.keyFor name app).toOption with
  | none => trivial
  | some key => exact h key

/-- Where workers that leave are left to the agent, it gives a hook with each request, and sees to
the orders of those whom it gives up. -/
theorem byAgent_deed {w : World} {i : Item}
    (hi : ∀ token c, i = .obey token c → c.leavesToAgent = true) :
    ByAgent ⟨w, i⟩ (deed ⟨w, i⟩) := by
  cases i
  case obey token c =>
    have hc := hi token c rfl
    cases c
    case removeWorker | loseWorker | pool => cases hc
    case offerNode o app => exact byAgent_offered _
    case reduceNode r => exact byAgent_withKey _ _ _ fun _ => trivial
    case removeNode r => exact byAgent_withKey _ _ _ fun _ => rfl
    case loseNode r => exact byAgent_withKey _ _ _ fun _ => rfl
    case tellSession app e =>
      unfold deed
      dsimp only
      cases w.agent.bind fun s => (s.monitorOf app).toOption <;> trivial
    all_goals trivial
  case takeOver im => exact byAgent_offered _
  case prepare p =>
    unfold deed
    dsimp only
    split
    · trivial
    · exact byAgent_offered _
  case releaseNode key => exact rfl
  all_goals trivial

end Moment

/-! ## What an item hands over -/

/-- There is an agent, and a sink for rescue orders. -/
structure World.Rescues (w : World) : Prop where
  /-- There is an agent. -/
  agent : w.agent.isSome = true
  /-- There is a sink. -/
  sink : w.sink.isSome = true

namespace World

variable {w : World} {i : Item}

/-- What an effect hands over: what was handed over before, with the orders of the item that has
the effect and those of the departure that it brings about. -/
def HandsOn (w : World) (i : Item) (e : Effect) : Prop :=
  e.1.handed ++ e.2.flatMap Item.orders = w.handed ++ i.orders ++
    (Moment.departure? ⟨w, i⟩).toList.flatMap fun r => r.2.handings

/-- An effect that hands nothing over. -/
theorem handsOn_of_eq {e : Effect} (hh : e.1.handed = w.handed)
    (ho : e.2.flatMap Item.orders = []) (hi : i.orders = [])
    (hd : Moment.departure? ⟨w, i⟩ = none) : w.HandsOn i e := by
  unfold HandsOn
  rw [hh, ho, hi, hd]
  simp

/-- Discreet items hand nothing over themselves; what they have handed over are the orders of a
worker that leaves as it was asked to. -/
theorem handsOn_discreet (hc : Change ⟨w, i⟩ (w.carryOut i).1.pool (w.carryOut i).2)
    (hby : Moment.ByAgent ⟨w, i⟩ (Moment.deed ⟨w, i⟩)) (hi : i.isDiscreet = true) :
    w.HandsOn i (w.carryOut i) := by
  have hd := w.discreet_carryOut hi
  have horders : i.orders = [] := by
    cases i with
    | note n => cases n <;> first | rfl | cases hi
    | tellHook hook r => cases hi
    | handOver orders => cases hi
    | _ => rfl
  unfold HandsOn
  rw [hd.unheard.handed, Item.orders_of_mute hd.mute, hc.hookings, horders, List.append_nil]
  congr 1
  cases hdep : Moment.departure? ⟨w, i⟩ with
  | none => rfl
  | some r =>
    obtain ⟨v, d⟩ := r
    have hforced : d.removed.forced = false := by
      rcases Moment.cases_of_departure? hdep with ⟨_, _, -, -, hf⟩ | ⟨key, hdeed, -⟩ | ⟨_, -, -, hf⟩
      · exact hf
      · rw [hdeed] at hby
        exact absurd (hby.symm.trans hi) Bool.false_ne_true
      · exact hf
    simp [Pool.Departure.handings, Pool.Departure.told, hforced, List.flatMap_map]

/-- A hook of the agent hands the orders of a worker that was drained to the sink. -/
theorem handsOn_tellHook (hw : w.Rescues) (hook : RemovalHook) (r : RemovedWorker) :
    w.HandsOn (.tellHook hook r) (w.tellHook hook r) := by
  unfold HandsOn
  rw [Moment.departure?_of_deed (show Moment.deed ⟨w, .tellHook hook r⟩ = .tellHook hook r from rfl)
    rfl]
  unfold tellHook
  dsimp only
  cases hook with
  | caller label => simp [Item.orders, Notice.orders]
  | agent =>
    cases hf : r.forced <;> cases hr : r.rescues <;>
      simp [Item.orders, Notice.orders, hw.agent, hf, hr]

/-- The sink is handed the orders. -/
theorem handsOn_handOver (hw : w.Rescues) (orders : List RescueOrder) :
    w.HandsOn (.handOver orders) (w.handOver orders) := by
  unfold HandsOn
  rw [Moment.departure?_of_deed (show Moment.deed ⟨w, .handOver orders⟩ = .idle from rfl) rfl]
  unfold handOver
  split
  · next hnone =>
    have hsink := hw.sink
    rw [hnone] at hsink
    cases hsink
  · simp [Item.orders, Notice.orders]
  · split
    · next hempty => simp [Item.orders, List.isEmpty_iff.mp hempty]
    · dsimp only
      have hnoted : (w.note (.handedOver false orders)).handed = w.handed ++ orders := by
        simp [Notice.orders]
      split
      · show (w.note (.handedOver false orders)).handed ++ _ = _
        rw [hnoted]
        simp [Item.orders]
      · rw [hnoted]
        simp [Item.orders]

/-- The orders of a worker that the agent gives up are handed over by the agent. -/
theorem handsOn_loseWorker (token : Nat) {key : WorkerKey}
    (hd : Moment.deed ⟨w, i⟩ = .lose key) (hi : i.orders = []) :
    w.HandsOn i (w.loseWorker token key true) := by
  have hleft := Moment.left?_of_lose hd
  unfold loseWorker
  cases hl : w.pool.lose? w.catalog key with
  | none =>
    rw [hl] at hleft
    exact handsOn_of_eq rfl (by simp [Item.orders, Notice.orders]) hi
      (Moment.departure?_of_left?_none hleft)
  | some d =>
    rw [hl] at hleft
    obtain ⟨v, hv, rfl⟩ := Pool.lose?_eq_some_iff.mp hl
    have hforced : (w.pool.depart w.catalog key v true).removed.forced = true := rfl
    unfold HandsOn
    rw [Moment.departure?_of_left? hleft hv, hi]
    dsimp only [depart, Item.ofHooks]
    cases hr : (w.pool.depart w.catalog key v true).removed.rescues <;>
      simp [handed, Pool.Departure.handings, Item.orders, Notice.orders, List.flatMap_map, hr,
        hforced]

theorem handsOn_loseNode (token : Nat) (r : NodeRequest) :
    w.HandsOn (.obey token (.loseNode r)) (w.obey token (.loseNode r)) := by
  show w.HandsOn _ (w.withNode token r.name r.app fun key => w.loseWorker token key true)
  have hdeed : Moment.deed ⟨w, .obey token (.loseNode r)⟩ =
    ((w.agent.bind fun s => (s.keyFor r.name r.app).toOption).map Deed.lose).getD .idle := rfl
  unfold withNode withAgent
  split
  · next hnone =>
    rw [hnone] at hdeed
    exact handsOn_of_eq rfl rfl rfl (Moment.departure?_of_deed hdeed rfl)
  · next s hs =>
    rw [hs] at hdeed
    dsimp only [Option.bind_some] at hdeed ⊢
    split
    · next hf =>
      rw [hf] at hdeed
      exact handsOn_of_eq rfl rfl rfl (Moment.departure?_of_deed hdeed rfl)
    · next key hk =>
      rw [hk] at hdeed
      exact handsOn_loseWorker token hdeed rfl

/-- What the listener is told is nothing to the sink. -/
theorem handed_report (w : World) (a : List Assignment) (c : List (WorkerKey × Capacity)) :
    (w.report a c).handed = w.handed := by
  unfold report
  split
  · rfl
  · dsimp only
    split <;> simp [handed, noteAll_eq, List.flatMap_map, Notice.orders]

/-- Where the agent and the sink are there, and workers that leave are left to the agent, every item
hands on what is due. -/
theorem handsOn_carryOut (hc : Change ⟨w, i⟩ (w.carryOut i).1.pool (w.carryOut i).2)
    (hw : w.Rescues) (hi : ∀ token c, i = .obey token c → c.leavesToAgent = true) :
    w.HandsOn i (w.carryOut i) := by
  by_cases hd : i.isDiscreet = true
  · exact handsOn_discreet hc (Moment.byAgent_deed hi) hd
  have hidle (hdeed : Moment.deed ⟨w, i⟩ = .idle) : Moment.departure? ⟨w, i⟩ = none :=
    Moment.departure?_of_deed hdeed rfl
  cases i
  case note n =>
    unfold HandsOn
    rw [Moment.departure?_of_deed (show Moment.deed ⟨w, .note n⟩ = .note n from rfl) rfl]
    simp [carryOut, Item.orders]
  case report a c => exact handsOn_of_eq (handed_report w a c) rfl rfl (hidle rfl)
  case tellCapacity key free => exact handsOn_of_eq (handed_report w _ _) rfl rfl (hidle rfl)
  case tellHook hook r => exact handsOn_tellHook hw hook r
  case handOver orders => exact handsOn_handOver hw orders
  case obey token c =>
    have hallowed := hi token c rfl
    obtain ⟨s, hs⟩ := Option.isSome_iff_exists.mp hw.agent
    cases c
    case dispatch | dismissAgent => cases hallowed
    case loseNode r => exact handsOn_loseNode token r
    case setListener l => exact handsOn_of_eq rfl rfl rfl (hidle rfl)
    case noteRescues =>
      show w.HandsOn _ (w.withAgent token fun _ => changed { w with sink := some .noting } token)
      rw [withAgent, hs]
      exact handsOn_of_eq rfl rfl rfl (hidle rfl)
    case dispatchRescues transfer deferred reports =>
      show w.HandsOn _
        (w.withAgent token fun _ => (w.setDispatcher transfer deferred reports).changed token)
      rw [withAgent, hs]
      refine handsOn_of_eq ?_ rfl rfl (hidle rfl)
      dsimp only [changed, setDispatcher]
      split <;> rfl
    all_goals exact absurd rfl hd
  all_goals exact absurd rfl hd

theorem frame_report (w : World) (a : List Assignment) (c : List (WorkerKey × Capacity)) :
    (w.report a c).agent = w.agent ∧ (w.report a c).sink = w.sink := by
  unfold report
  split
  · exact ⟨rfl, rfl⟩
  · dsimp only
    split <;> simp [noteAll_eq]

/-- An agent is there until it is dismissed, and a sink for good. -/
theorem staff_carryOut (w : World) (i : Item) :
    (w.carryOut i).1.agent.isSome = (w.agent.isSome && !i.dismisses) ∧
      (w.sink.isSome = true → (w.carryOut i).1.sink.isSome = true) := by
  have hkept {w' : World} (hf : i.dismisses = false) (ha : w'.agent = w.agent)
      (hs : w'.sink = w.sink) : w'.agent.isSome = (w.agent.isSome && !i.dismisses) ∧
        (w.sink.isSome = true → w'.sink.isSome = true) := by
    rw [ha, hs, hf]
    exact ⟨(Bool.and_true _).symm, fun h => h⟩
  by_cases hd : i.isDiscreet = true
  · have hu := (w.discreet_carryOut hd).unheard
    have hf : i.dismisses = false := by
      cases i with
      | obey token c => cases c <;> first | rfl | cases hd
      | _ => rfl
    rw [hu.agent, hu.sink, hf]
    exact ⟨(Bool.and_true _).symm, fun h => h⟩
  cases i
  case note n => exact hkept rfl rfl rfl
  case report a c => exact hkept rfl (w.frame_report a c).1 (w.frame_report a c).2
  case tellCapacity key free =>
    exact hkept rfl (w.frame_report [] [(key, free)]).1 (w.frame_report [] [(key, free)]).2
  case tellHook hook r =>
    unfold World.carryOut tellHook
    dsimp only
    split
    · exact hkept rfl rfl rfl
    · split <;> exact hkept rfl rfl rfl
  case handOver orders =>
    unfold World.carryOut handOver
    dsimp only
    split
    · exact hkept rfl rfl rfl
    · exact hkept rfl rfl rfl
    · split
      · exact hkept rfl rfl rfl
      · split <;> exact hkept rfl rfl rfl
  case obey token c =>
    cases c
    case dismissAgent => exact ⟨(Bool.and_false _).symm, fun h => h⟩
    case setListener l => exact hkept rfl rfl rfl
    case dispatch orders =>
      unfold World.carryOut obey
      dsimp only
      split <;> exact hkept rfl rfl rfl
    case loseNode r =>
      show (w.withNode token r.name r.app fun key => w.loseWorker token key true).1.agent.isSome =
        _ ∧ (_ → (w.withNode token r.name r.app fun key =>
          w.loseWorker token key true).1.sink.isSome = true)
      unfold withNode withAgent
      split
      · exact hkept rfl rfl rfl
      · dsimp only
        split
        · exact hkept rfl rfl rfl
        · unfold loseWorker
          split <;> exact hkept rfl rfl rfl
    case noteRescues =>
      show (w.withAgent token fun _ =>
          changed { w with sink := some .noting } token).1.agent.isSome = _ ∧
        (_ → (w.withAgent token fun _ =>
          changed { w with sink := some .noting } token).1.sink.isSome = true)
      unfold withAgent
      split
      · exact hkept rfl rfl rfl
      · exact ⟨(Bool.and_true _).symm, fun _ => rfl⟩
    case dispatchRescues transfer deferred reports =>
      show (w.withAgent token fun _ =>
          (w.setDispatcher transfer deferred reports).changed token).1.agent.isSome =
        _ ∧ (_ → (w.withAgent token fun _ =>
          (w.setDispatcher transfer deferred reports).changed token).1.sink.isSome = true)
      unfold withAgent
      split
      · exact hkept rfl rfl rfl
      · unfold setDispatcher
        split <;> exact ⟨(Bool.and_true _).symm, fun _ => rfl⟩
    all_goals exact absurd rfl hd
  all_goals exact absurd rfl hd

/-- Where workers that leave are left to the agent, agent and sink stay in place. -/
theorem Rescues.carryOut (h : w.Rescues)
    (hi : ∀ token c, i = .obey token c → c.leavesToAgent = true) : (w.carryOut i).1.Rescues := by
  have hf : i.dismisses = false := by
    cases i with
    | obey token c => cases c <;> first | rfl | cases hi _ _ rfl
    | _ => rfl
  obtain ⟨ha, hs⟩ := w.staff_carryOut i
  rw [h.agent, hf] at ha
  exact ⟨ha, hs h.sink⟩

end World

/-! ## Requests -/

section Requests

variable {t : List Moment} {x : Moment} {seq : Nat}

@[simp] theorem timesAsked_cons (x : Moment) (t : List Moment) (seq : Nat) :
    timesAsked (x :: t) seq = timesAsked t seq + if x.asksToLeave seq then 1 else 0 :=
  List.countP_cons

theorem timesAsked_pos_iff : 0 < timesAsked t seq ↔ askedToLeave t seq = true := by
  rw [timesAsked, List.countP_pos_iff, askedToLeave, List.any_eq_true]

/-- The agent gives a hook with each request. -/
theorem Moment.hooksGiven_of_byAgent (h : x.ByAgent x.deed) (seq : Nat) :
    x.hooksGiven seq = List.replicate (if x.asksToLeave seq then 1 else 0) .agent := by
  cases hr : x.request? with
  | none => rw [hooksGiven_of_none hr, asksToLeave_of_none hr, if_neg Bool.false_ne_true]; rfl
  | some r =>
    obtain ⟨v, hook⟩ := r
    have hhook : hook = some .agent := by
      unfold request? at hr
      split at hr
      · next key hook' hd =>
        obtain ⟨u, -, he⟩ := Option.map_eq_some_iff.mp hr
        cases he
        rw [hd] at h
        exact h
      · cases hr
    rw [hooksGiven_of_some hr, asksToLeave_of_some hr, hhook]
    by_cases he : v.seq = seq
    · rw [if_pos he, decide_eq_true he]; rfl
    · rw [if_neg he, decide_eq_false he]; rfl

end Requests

/-! ## The invariant -/

/-- What the sink was handed in the moments `t`, where workers that leave are left to the agent. -/
structure Rescuing (t : List Moment) (m : Machine) : Prop where
  /-- There are an agent and a sink. -/
  rescues : m.world.Rescues
  /-- The pool is what the moments say. -/
  roster : Roster t m.world.pool
  /-- A hook of the agent was given with each request. -/
  given : ∀ seq, hooksGiven t seq = List.replicate (timesAsked t seq) .agent
  /-- Who left and was not lost was asked to. -/
  asked : ∀ {v d}, (v, d) ∈ departures t → d.removed.forced = false → 0 < timesAsked t v.seq
  /-- What the sink was handed and is still to be handed is what departures bring about. -/
  balance : (m.world.handed ++ m.agenda.flatMap Item.orders).Perm
    ((departures t).flatMap fun r => r.2.handings)

namespace Rescuing

open Machine

variable {t : List Moment} {w : World} {i : Item} {rest : List Item}

/-- Who leaves at a moment and is not lost is asked to then, or was before. -/
theorem asked_step (h : Rescuing t ⟨w, i :: rest⟩) (hag : InAgreement ⟨w, i :: rest⟩) {v : Worker}
    {d : Pool.Departure} (hd : (v, d) ∈ departures (⟨w, i⟩ :: t)) (hf : d.removed.forced = false) :
    0 < timesAsked (⟨w, i⟩ :: t) v.seq := by
  rw [timesAsked_pos_iff]
  rw [departures_cons] at hd
  rcases List.mem_append.mp hd with hd | hd
  · exact askedToLeave_later (timesAsked_pos_iff.mp (h.asked hd hf))
  · rcases Moment.cases_of_departure? (Option.mem_toList.mp hd) with
      ⟨key, hook, -, hr, -⟩ | ⟨key, -, hforced⟩ | ⟨key, hdeed, hv, -⟩
    · rw [askedToLeave_cons, Moment.asksToLeave_of_some hr, decide_eq_true rfl]
      rfl
    · rw [hforced] at hf
      cases hf
    · have hby := Moment.doneBy_deed ⟨w, i⟩
      rw [hdeed] at hby
      obtain rfl : i = .retire key v.seq := hby
      have hdrained := (hag.agrees.drained List.mem_cons_self).2 hv rfl
      rw [Worker.isDrained, Bool.and_eq_true] at hdrained
      exact askedToLeave_later ((h.roster.marked hv).symm.trans hdrained.1)

theorem step (h : Rescuing t ⟨w, i :: rest⟩) (hag : InAgreement ⟨w, i :: rest⟩)
    (hi : ∀ token c, i = .obey token c → c.leavesToAgent = true) :
    Rescuing (⟨w, i⟩ :: t) (Machine.step ⟨w, i :: rest⟩) where
  rescues := h.rescues.carryOut hi
  roster := h.roster.step hag.change
  given seq := by
    rw [hooksGiven_cons, h.given seq, Moment.hooksGiven_of_byAgent (Moment.byAgent_deed hi),
      timesAsked_cons, List.replicate_add]
  asked hd hf := h.asked_step hag hd hf
  balance := by
    have hon : _ = _ := World.handsOn_carryOut hag.change h.rescues hi
    have hbalance := h.balance
    rw [List.flatMap_cons, ← List.append_assoc] at hbalance
    rw [step_cons, List.flatMap_append, ← List.append_assoc, hon, departures_cons,
      List.flatMap_append, List.append_assoc _ _ (rest.flatMap _)]
    refine List.Perm.trans ?_ (hbalance.append_right _)
    rw [List.append_assoc _ (rest.flatMap _)]
    exact List.perm_append_comm.append_left _

/-- Along every course in which workers that leave are left to the agent, the sink is handed what
departures bring about. -/
theorem of_course {rule : Conduct} {w₀ : World} (hw : InAgreement ⟨w₀, []⟩)
    (hroster : Roster [] w₀.pool) (hrescues : w₀.Rescues) (hlog : w₀.log = [])
    (hasks : ∀ {c}, rule.asks c → c.leavesToAgent = true)
    (hanswers : ∀ {c}, rule.answers c → c.leavesToAgent = true) {m : Machine}
    (h : Course rule w₀ t m) : Rescuing t m := by
  have hspared {c : Command} (hc : c.leavesToAgent = true) : c.surface ≠ .pool := by
    intro hp
    cases c <;> cases hp
    cases hc
  have hrule : rule.SparesPool := ⟨fun hc => hspared (hasks hc), fun hc => hspared (hanswers hc)⟩
  induction h with
  | start =>
    refine ⟨hrescues, hroster, fun _ => rfl, fun hd => (by cases hd), ?_⟩
    rw [World.handed, hlog]
    exact .refl _
  | ask token _ _ ih => exact ⟨ih.rescues, ih.roster, ih.given, ih.asked, ih.balance⟩
  | item hcourse ih =>
    refine ih.step (hcourse.keepsAgreement hw hrule) fun token c hi => ?_
    subst hi
    exact hcourse.allows hw hrule hasks hanswers List.mem_cons_self
  | @answer t w p rest given _ _ ih =>
    refine ⟨ih.rescues, ih.roster, ih.given, ih.asked, ?_⟩
    have hnone : (given.map fun g => Item.obey g.1 g.2).flatMap Item.orders = [] := by
      rw [List.flatMap_map]
      exact List.flatMap_eq_nil_iff.mpr fun _ _ => rfl
    rw [List.flatMap_append, hnone]
    exact ih.balance

end Rescuing

/-! ## How often orders are handed over -/

/-- How often the orders of a worker that left are handed over: once if it was lost, else as often
as it was asked to leave. -/
def handovers (t : List Moment) (r : Worker × Pool.Departure) : Nat :=
  if r.2.removed.forced then 1 else timesAsked t r.1.seq

/-- Lists that are repeated come to as much as each of them once only if none of them that is not
empty is repeated. -/
theorem perm_flatMap_replicate_iff {α β : Type} {l : List α} {f : α → List β} {n : α → Nat}
    (hn : ∀ a ∈ l, 0 < n a) :
    (l.flatMap fun a => (List.replicate (n a) (f a)).flatten).Perm (l.flatMap f) ↔
      ∀ a ∈ l, f a ≠ [] → n a = 1 := by
  constructor
  · intro hperm a ha hne
    by_contra hmany
    have hlength (b : α) : ((List.replicate (n b) (f b)).flatten).length = n b * (f b).length := by
      simp
    have hlt : (l.map fun b => (f b).length).sum <
        (l.map fun b => ((List.replicate (n b) (f b)).flatten).length).sum := by
      refine List.sum_lt_sum _ _ (fun b hb => ?_) ⟨a, ha, ?_⟩
      · rw [hlength]
        exact Nat.le_mul_of_pos_left _ (hn b hb)
      · have hpos := List.length_pos_iff.mpr hne
        have htwo : 2 ≤ n a := by
          have := hn a ha
          omega
        rw [hlength]
        calc (f a).length < 2 * (f a).length := by omega
          _ ≤ n a * (f a).length := Nat.mul_le_mul_right _ htwo
    have heq := hperm.length_eq
    rw [List.length_flatMap, List.length_flatMap] at heq
    omega
  · intro hone
    refine .of_eq (List.flatMap_congr fun a ha => ?_)
    by_cases hne : f a = []
    · simp [hne]
    · simp [hone a ha hne]

namespace Rescuing

variable {t : List Moment} {m : Machine}

theorem handings_eq (h : Rescuing t m) {r : Worker × Pool.Departure} (hr : r ∈ departures t) :
    r.2.handings = (List.replicate (handovers t r) r.2.removed.rescues).flatten := by
  obtain ⟨v, d⟩ := r
  have hhooks : d.hooks = List.replicate (timesAsked t v.seq) .agent :=
    (h.roster.record hr).2.trans (h.given v.seq)
  have hflat : (d.hooks.flatMap fun k => (Item.tellHook k d.removed).orders) =
      (List.replicate (timesAsked t v.seq)
        (if d.removed.forced then [] else d.removed.rescues)).flatten := by
    rw [hhooks, List.flatMap_replicate]
    rfl
  unfold Pool.Departure.handings handovers
  rw [hflat]
  cases d.removed.forced <;> simp

/-- Orders are handed over at least once. -/
theorem handovers_pos (h : Rescuing t m) {r : Worker × Pool.Departure} (hr : r ∈ departures t) :
    0 < handovers t r := by
  unfold handovers
  split
  · exact Nat.one_pos
  · next hf => exact h.asked hr (Bool.eq_false_iff.mpr hf)

end Rescuing

/-- The world with a sink for rescue orders. -/
def World.withSink (w : World) (s : RescueSink) : World := { w with sink := some s }

namespace Machine

/-- However the scheduler, the agent and the catalog are used, if workers that leave are left to the
agent, then the orders of a lost worker are handed over once and those of any other as often as it
was asked to leave.  So every order is handed over exactly once only if nobody whose data have to be
saved was asked twice. -/
theorem Course.handsOver {rule : Conduct} {policy : Policy} {localNodes : List String}
    {withholds : Bool} {limit : Nat} {sink : RescueSink} {t : List Moment} {m : Machine}
    (hasks : ∀ {c}, rule.asks c → c.leavesToAgent = true)
    (hanswers : ∀ {c}, rule.answers c → c.leavesToAgent = true)
    (h : Course rule ((World.fresh policy localNodes withholds limit).withSink sink) t m)
    (hdone : m.agenda = []) :
    m.world.handed.Perm ((departures t).flatMap fun r =>
        (List.replicate (handovers t r) r.2.removed.rescues).flatten) ∧
      (HandsOverOnce t m.world ↔ ∀ r ∈ departures t, r.2.removed.forced = false →
        r.2.removed.rescues ≠ [] → timesAsked t r.1.seq = 1) := by
  have hnow := Rescuing.of_course ⟨agrees_empty limit rfl, rfl, fun _ _ hj => by cases hj⟩
    (.start rfl rfl) ⟨rfl, rfl⟩ rfl hasks hanswers h
  have hbalance := hnow.balance
  rw [hdone, List.flatMap_nil, List.append_nil,
    List.flatMap_congr fun r hr => hnow.handings_eq hr] at hbalance
  refine ⟨hbalance, ?_⟩
  have honce : HandsOverOnce t m.world ↔
      ((departures t).flatMap fun r =>
        (List.replicate (handovers t r) r.2.removed.rescues).flatten).Perm
      ((departures t).flatMap fun r => r.2.removed.rescues) :=
    ⟨fun ho => hbalance.symm.trans ho, fun ho => hbalance.trans ho⟩
  rw [honce, perm_flatMap_replicate_iff fun r hr => hnow.handovers_pos hr]
  refine forall₂_congr fun r _ => ?_
  unfold handovers
  cases r.2.removed.forced <;> simp

/-! ### A node that is given back twice -/

/-- A node is offered. -/
def lodging : Machine :=
  asked ((World.fresh .fifo [] false 8).withSink .noting) 0
    (.offerNode { name := "n", description := .cpus 1 } none)

/-- A task is run, and bound to the node. -/
def boarding : Machine :=
  asked (lodging.advance 5).world 1 (.runTask { submission := .single (.cpus 1) "h" } .silent)

/-- The node is given back. -/
def quitting : Machine := asked (boarding.advance 12).world 2 (.removeNode { name := "n" })

/-- The node is given back again. -/
def nagging : Machine := asked (quitting.advance 2).world 3 (.removeNode { name := "n" })

/-- The task is done, and its value is a file of the node. -/
def finishing (w : World) : Machine :=
  asked w 4 (.complete 1 [⟨"out", "t", .ownFile "n" "/out"⟩])

/-- The moments until the node was given back. -/
def quittingMoments : List Moment :=
  moments 2 quitting ++ (moments 12 boarding ++ (moments 5 lodging ++ []))

/-- The moments if the node is given back once. -/
def sparingMoments : List Moment :=
  moments 18 (finishing (quitting.advance 2).world) ++ quittingMoments

/-- The moments if the node is given back twice. -/
def doublingMoments : List Moment :=
  moments 20 (finishing (nagging.advance 2).world) ++ (moments 2 nagging ++ quittingMoments)

theorem course_quitting :
    Course (.quiet fun c => c.leavesToAgent = true)
      ((World.fresh .fifo [] false 8).withSink .noting) quittingMoments
      ⟨(quitting.advance 2).world, []⟩ :=
  ((Course.start.call 0 5 (show _ = _ from rfl) (by decide +kernel)).call 1 12
    (show _ = _ from rfl) (by decide +kernel)).call 2 2 (show _ = _ from rfl) (by decide +kernel)

theorem course_sparing :
    Course (.quiet fun c => c.leavesToAgent = true)
      ((World.fresh .fifo [] false 8).withSink .noting) sparingMoments
      ⟨((finishing (quitting.advance 2).world).advance 18).world, []⟩ :=
  course_quitting.call 4 18 (show _ = _ from rfl) (by decide +kernel)

theorem course_doubling :
    Course (.quiet fun c => c.leavesToAgent = true)
      ((World.fresh .fifo [] false 8).withSink .noting) doublingMoments
      ⟨((finishing (nagging.advance 2).world).advance 20).world, []⟩ :=
  (course_quitting.call 3 2 (show _ = _ from rfl) (by decide +kernel)).call 4 20
    (show _ = _ from rfl) (by decide +kernel)

/-- The sink is handed the order of a node that is given back twice two times. -/
theorem not_handsOverOnce_doubling :
    Course (.quiet fun c => c.leavesToAgent = true)
        ((World.fresh .fifo [] false 8).withSink .noting) doublingMoments
        ⟨((finishing (nagging.advance 2).world).advance 20).world, []⟩ ∧
      ¬ HandsOverOnce doublingMoments
        ((finishing (nagging.advance 2).world).advance 20).world := by
  refine ⟨course_doubling, fun honce => ?_⟩
  have htwo : ((finishing (nagging.advance 2).world).advance 20).world.handed.length = 2 := by
    decide +kernel
  have hone : ((departures doublingMoments).flatMap fun r => r.2.removed.rescues).length = 1 := by
    decide +kernel
  have hlength := List.Perm.length_eq honce
  rw [htwo, hone] at hlength
  cases hlength

/-- A node that is given back once is asked once, and its order is handed over once. -/
theorem handsOver_sparing :
    ((departures sparingMoments).map fun r => r.2.removed.rescues) =
        [[⟨"out", "n", .ownFile "n" "/out"⟩]] ∧
      HandsOverOnce sparingMoments ((finishing (quitting.advance 2).world).advance 18).world := by
  have honce : (departures sparingMoments).all
      (fun r => timesAsked sparingMoments r.1.seq = 1) = true := by decide +kernel
  refine ⟨by decide +kernel, (Course.handsOver (fun hc => hc)
    (fun {c} (hc : False) => hc.elim) course_sparing rfl).2.mpr fun r hr _ _ => ?_⟩
  exact of_decide_eq_true (List.all_eq_true.mp honce r hr)

end Machine

end TaskGrid
