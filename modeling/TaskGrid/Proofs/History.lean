import Mathlib.Data.List.Nodup
import TaskGrid.Proofs.Losses

/-!
# What is remembered of the actions that ended

Four operations end an action: it finishes, it fails, it is cancelled, or its worker is lost.  Each
of them takes the action out of the table and notes its last state.  Only so many notes are kept as
the grid was set up with, perhaps none; the oldest gives way first.

Which actions end at a moment, and how, is read off the moment (`Moment.endings`), and the list of
all that ended off the course (`terminations`).  What is remembered is always the end of that list.
As identifiers are never handed out again, no action is in it twice, and so what is known of an
action depends only on how many ended after it: nothing else is said of an identifier in any run,
whatever was asked, whatever clients answered and whatever disturbs the passes.

* `Schedule.boundAmong`, `Schedule.fails_boundAmong`: the actions that are lost with a worker.
* `World.Closes`, `World.closes_carryOut`: exactly the endings of a moment leave the table.
* `World.Remembers`: what is said of an action that is live, remembered or forgotten.
* `Machine.Course.remembers`: this holds of every run.
-/

namespace TaskGrid

namespace Schedule

variable {s t : Schedule} {id : Nat} {ids : List Nat} {key : WorkerKey}

/-! ## The actions that are lost with a worker -/

/-- The actions of a list that are bound to a worker, each once. -/
def boundAmong (s : Schedule) (key : WorkerKey) : List Nat → List Nat
  | [] => []
  | id :: ids =>
    if s.bindingOf? id = some key then id :: (s.boundAmong key ids).filter (· ≠ id)
    else s.boundAmong key ids

/-- It depends on nothing but the entries. -/
theorem boundAmong_congr (h : t.actions = s.actions) :
    t.boundAmong key ids = s.boundAmong key ids := by
  induction ids with
  | nil => rfl
  | cons id ids ih => rw [boundAmong, boundAmong, ih, bindingOf?, bindingOf?, h]

theorem mem_boundAmong {i : Nat} :
    i ∈ s.boundAmong key ids ↔ i ∈ ids ∧ s.bindingOf? i = some key := by
  induction ids with
  | nil => simp [boundAmong]
  | cons id ids ih =>
    unfold boundAmong
    by_cases hi : i = id
    · subst hi
      split <;> simp_all
    · split <;> simp [hi, ih]

theorem nodup_boundAmong (s : Schedule) (key : WorkerKey) (ids : List Nat) :
    (s.boundAmong key ids).Nodup := by
  induction ids with
  | nil => exact List.nodup_nil
  | cons id ids ih =>
    unfold boundAmong
    split
    · refine List.nodup_cons.mpr ⟨fun h => ?_, ih.filter _⟩
      simpa using (List.mem_filter.mp h).2
    · exact ih

/-- Whoever is not live any more is not bound any more. -/
theorem boundAmong_erase (s : Schedule) (key : WorkerKey) (id : Nat) (ids : List Nat) :
    ({ s with actions := s.actions.erase id } : Schedule).boundAmong key ids =
      (s.boundAmong key ids).filter (· ≠ id) := by
  have hbinding (i : Nat) : ({ s with actions := s.actions.erase id } : Schedule).bindingOf? i =
      if i = id then none else s.bindingOf? i := by
    unfold bindingOf?
    rw [SortedMap.get?_erase]
    split <;> rfl
  induction ids with
  | nil => rfl
  | cons i ids ih =>
    unfold boundAmong
    rw [hbinding, ih]
    by_cases hi : i = id
    · subst hi
      by_cases hb : s.bindingOf? i = some key <;> simp [hb]
    · by_cases hb : s.bindingOf? i = some key
      · simp [hi, hb, Bool.and_comm]
      · simp [hi, hb]

/-- What is remembered is within what is to be. -/
theorem Recollects.rtake_history (h : s.Recollects) :
    s.history.rtake s.historyLimit = s.history := by
  rw [List.rtake, Nat.sub_eq_zero_of_le h, List.drop_zero]

/-- Exactly those of the listed actions fail that are bound to the lost worker, in their order. -/
theorem fails_boundAmong (hs : s.Recollects) (key : WorkerKey) (ids : List Nat) :
    s.Fails (s.boundAmong key ids) (s.abandon key ids).1 := by
  suffices hfold : ∀ o : Outbox, s.Fails (s.boundAmong key ids)
      (ids.foldl (fun r id => abandonOne key r.1 r.2 id) (s, o)).1 from hfold {}
  intro o
  induction ids generalizing s o with
  | nil =>
    refine ⟨fun i => by simp [boundAmong], rfl, rfl, ?_, rfl, rfl⟩
    simp only [boundAmong, List.map_nil, List.append_nil]
    exact hs.rtake_history.symm
  | cons id ids ih =>
    rw [List.foldl_cons]
    unfold boundAmong
    by_cases hb : s.bindingOf? id = some key
    · obtain ⟨x, hx, hbinding⟩ := Option.bind_eq_some_iff.mp hb
      have htable : (abandonOne key s o id).1 =
          remember { s with actions := s.actions.erase id } id (.failed .nodeLost) := by
        unfold abandonOne
        rw [hx]
        dsimp only
        rw [if_pos hbinding]
      have hone := htable ▸ fails_remember hs id
      have hrest := ih (s := (abandonOne key s o id).1)
        (htable ▸ recollects_remember (s := { s with actions := s.actions.erase id }) hs _ _)
        (abandonOne key s o id).2
      have hleft : (abandonOne key s o id).1.boundAmong key ids =
          (s.boundAmong key ids).filter (· ≠ id) := by
        rw [htable, ← boundAmong_erase]
        exact boundAmong_congr (actions_remember _ _ _)
      rw [if_pos hb, ← hleft]
      exact hone.trans hrest
    · have hsame : abandonOne key s o id = (s, o) := by
        unfold abandonOne
        split
        · rfl
        · next x hx => exact if_neg fun hbinding => hb (by rw [bindingOf?, hx]; exact hbinding)
      rw [if_neg hb, hsame]
      exact ih hs o

/-! ## Whoever goes on -/

/-- From one table to another the same actions are live, and none is accepted. -/
structure SameLive (s t : Schedule) : Prop where
  /-- The same identifier is next. -/
  nextId : t.nextId = s.nextId
  /-- The same identifiers are not live. -/
  gone_iff : ∀ id, t.actions.get? id = none ↔ s.actions.get? id = none

theorem SameLive.refl (s : Schedule) : s.SameLive s := ⟨rfl, fun _ => .rfl⟩

theorem SameLive.trans {u : Schedule} (h : s.SameLive t) (h' : t.SameLive u) : s.SameLive u :=
  ⟨h'.nextId.trans h.nextId, fun id => (h'.gone_iff id).trans (h.gone_iff id)⟩

/-- One entry is replaced. -/
theorem sameLive_of_insert {x e : Entry} (hx : s.actions.get? id = some x)
    (ht : t.actions = s.actions.insert id e) (nextId : t.nextId = s.nextId) : s.SameLive t := by
  refine ⟨nextId, fun i => ?_⟩
  rw [ht, SortedMap.get?_insert]
  split
  · next hi =>
    rw [hi, hx]
    exact iff_of_false (fun h => by cases h) fun h => by cases h
  · exact .rfl

theorem sameLive_wake (s : Schedule) (name : String) : s.SameLive (s.wake name).1 := by
  unfold wake
  split
  · exact .refl s
  · refine List.foldlRecOn (motive := fun r : Schedule × Outbox => s.SameLive r.1) _ _
      ⟨rfl, fun _ => .rfl⟩ fun r hr id _ => hr.trans ?_
    unfold wakeOne
    dsimp only
    split
    · exact .refl _
    · next x hx => split <;> exact sameLive_of_insert hx rfl rfl

theorem sameLive_markRunning (h : s.markRunning? id = some t) : s.SameLive t := by
  obtain ⟨x, hx, ht⟩ := Option.bind_eq_some_iff.mp h
  split at ht
  · cases ht
    exact sameLive_of_insert hx rfl rfl
  · cases ht

end Schedule

namespace Pass

theorem sameLive_bind (p : Pass) (x : Candidate) (free : Capacity) (pool : Pool) :
    p.schedule.SameLive (p.bind x free pool).schedule := by
  unfold bind
  dsimp only
  split
  · exact ⟨rfl, fun _ => .rfl⟩
  · next e he => exact Schedule.sameLive_of_insert he rfl rfl

theorem sameLive_reportOne (views : List WorkerView) (s : Schedule) (o : Outbox) (id : Nat) :
    s.SameLive (reportOne views s o id).1 := by
  unfold reportOne
  split
  · exact .refl s
  · next x hx =>
    dsimp only
    split
    · exact .refl s
    · exact Schedule.sameLive_of_insert hx rfl rfl

theorem stable_sameLive (s : Schedule) : Stable fun t _ => s.SameLive t where
  disturb _ _ h := h
  bind {p x free pool} h _ _ := h.trans (p.sameLive_bind x free pool)
  report views o id h := h.trans (sameLive_reportOne views _ o id)

end Pass

/-! ## The endings of a moment -/

/-- The actions that a deed ends in a table with their last states, in the order in which they
end. -/
def Deed.endings (s : Schedule) : Deed → List (Nat × ActionState)
  | .conclude id ending =>
    if (s.actions.get? id).any fun x => ending.suits x.state then [(id, ending.state)] else []
  | .fail key ids => (s.boundAmong key ids).map fun id => (id, .failed .nodeLost)
  | _ => []

/-- The actions that end at a moment with their last states. -/
def Moment.endings (x : Moment) : List (Nat × ActionState) := x.deed.endings x.world.schedule

/-- The actions that ended in a course with their last states, in the order in which they ended. -/
def terminations (t : List Moment) : List (Nat × ActionState) := t.reverse.flatMap Moment.endings

theorem terminations_cons (x : Moment) (t : List Moment) :
    terminations (x :: t) = terminations t ++ x.endings := by
  simp [terminations]

namespace World

variable {w : World} {d : Deed} {es : List (Nat × ActionState)} {s : Schedule}

/-- From a world to another table exactly the actions of a list end, in its order. -/
structure Closes (w : World) (es : List (Nat × ActionState)) (s : Schedule) : Prop where
  /-- None of them ends twice. -/
  once : (es.map Prod.fst).Nodup
  /-- They were live. -/
  live : ∀ id ∈ es.map Prod.fst, id < w.schedule.nextId ∧ w.schedule.actions.get? id ≠ none
  /-- An action is past afterwards if it was past before or is one of them. -/
  past_iff : ∀ id, (id < s.nextId ∧ s.actions.get? id = none) ↔
    w.Past id ∨ id ∈ es.map Prod.fst
  /-- The latest endings are remembered. -/
  history : s.history = (w.schedule.history ++ es).rtake w.schedule.historyLimit
  /-- As many are to be remembered. -/
  historyLimit : s.historyLimit = w.schedule.historyLimit

/-- Where the same actions are live nothing ends. -/
theorem closes_nil (hs : w.schedule.Recollects) (same : w.schedule.SameLive s)
    (goes : w.schedule.GoesOn s) : w.Closes [] s where
  once := List.nodup_nil
  live _ h := by cases h
  past_iff id := by
    rw [same.nextId, same.gone_iff]
    exact (or_iff_left (by simp)).symm
  history := by rw [goes.history, List.append_nil, hs.rtake_history]
  historyLimit := goes.historyLimit

/-- One action ends. -/
theorem closes_conclude (hs : w.schedule.Recollects) {x : Entry}
    (hx : w.schedule.actions.get? x.action.id = some x) (hold : x.action.id < w.schedule.nextId)
    (events : List Event) (last : ActionState) :
    w.Closes [(x.action.id, last)] (w.schedule.conclude w.pool x events last).1 := by
  obtain ⟨hactions, -, hnext⟩ := Schedule.conclude_frame w.schedule w.pool x events last
  have hqueue := Schedule.goesOn_unqueue
    { w.schedule with actions := w.schedule.actions.erase x.action.id } x.action.id
    x.missing.toList
  refine ⟨List.pairwise_singleton _ _, fun id hid => ?_, fun id => ?_, ?_, ?_⟩
  · rw [List.map_singleton, List.mem_singleton] at hid
    rw [hid, hx]
    exact ⟨hold, Option.some_ne_none x⟩
  · rw [hnext, hactions, SortedMap.get?_erase, List.map_singleton, List.mem_singleton]
    by_cases hid : id = x.action.id
    · simp [hid, hold]
    · simp [hid, Past]
  · refine (Schedule.history_remember (hqueue.recollects hs) _ _).trans ?_
    rw [hqueue.history, hqueue.historyLimit]
  · exact (Schedule.historyLimit_remember _ _ _).trans hqueue.historyLimit

/-- The actions of a lost worker end. -/
theorem closes_abandon (hs : w.schedule.Recollects) (hsound : w.schedule.Sound) (key : WorkerKey)
    (ids : List Nat) :
    w.Closes ((w.schedule.boundAmong key ids).map fun id => (id, .failed .nodeLost))
      (w.schedule.abandon key ids).1 := by
  have hfails := Schedule.fails_boundAmong hs key ids
  have hids : ((w.schedule.boundAmong key ids).map fun id =>
      (id, ActionState.failed .nodeLost)).map Prod.fst = w.schedule.boundAmong key ids :=
    (List.map_map ..).trans (List.map_id _)
  have hlive : ∀ id ∈ w.schedule.boundAmong key ids,
      id < w.schedule.nextId ∧ w.schedule.actions.get? id ≠ none := fun id hid => by
    obtain ⟨x, hx, -⟩ := Option.bind_eq_some_iff.mp (Schedule.mem_boundAmong.mp hid).2
    rw [hx]
    exact ⟨hsound.old (Schedule.standing?_eq_some_iff.mpr ⟨x, hx, rfl⟩), Option.some_ne_none x⟩
  refine ⟨hids.symm ▸ w.schedule.nodup_boundAmong key ids, by rwa [hids], fun id => ?_,
    hfails.history, hfails.historyLimit⟩
  rw [hfails.nextId, hfails.actions, hids]
  by_cases hid : id ∈ w.schedule.boundAmong key ids
  · simp [hid, (hlive id hid).1]
  · simp [hid, Past]

/-- What is accepted is live. -/
theorem closes_accept (hs : w.schedule.Recollects) (task : Submission) (monitor : Monitor) :
    w.Closes [] (w.schedule.accept w.catalog task monitor).2.1 := by
  have hgoes := w.schedule.goesOn_accept w.catalog task monitor
  refine ⟨List.nodup_nil, fun _ h => (by cases h), fun id => ?_, ?_, hgoes.historyLimit⟩
  · have hgone : (w.schedule.accept w.catalog task monitor).2.1.actions.get? id = none ↔
        id ≠ w.schedule.nextId ∧ w.schedule.actions.get? id = none := by
      have hstanding := w.schedule.standing?_accept w.catalog task monitor id
      rw [← Option.map_eq_none_iff (f := Entry.standing),
        ← Option.map_eq_none_iff (f := Entry.standing)]
      unfold Schedule.standing? at hstanding
      rw [hstanding]
      split
      · next hid => simp [hid]
      · next hid => simp [hid]
    rw [Schedule.nextId_accept, hgone, Past]
    simp only [List.map_nil, List.not_mem_nil, or_false]
    constructor
    · rintro ⟨hlt, hne, hnone⟩
      exact ⟨by omega, hnone⟩
    · rintro ⟨hlt, hnone⟩
      exact ⟨by omega, by omega, hnone⟩
  · rw [hgoes.history, List.append_nil, hs.rtake_history]

/-- A deed that concludes nothing and abandons nobody ends nothing. -/
theorem Moves.closes_nil (h : w.Moves d s) (hs : w.schedule.Recollects)
    (hc : ∀ id ending, d ≠ .conclude id ending) (hf : ∀ key ids, d ≠ .fail key ids) :
    w.Closes [] s := by
  cases h with
  | same _ _ => exact World.closes_nil hs (.refl _) (.refl _)
  | pass =>
    exact World.closes_nil hs ((Pass.stable_sameLive _).run w.policy (.refl _)) w.goesOn_passed
  | wake name =>
    exact World.closes_nil hs (w.schedule.sameLive_wake name) (w.schedule.goesOn_wake name)
  | submit task monitor => exact closes_accept hs task monitor
  | conclude ending live => exact absurd rfl (hc _ _)
  | run marked =>
    exact World.closes_nil hs (Schedule.sameLive_markRunning marked)
      (Schedule.goesOn_markRunning marked)
  | fail key ids => exact absurd rfl (hf _ _)

/-- Exactly the endings of a deed leave the table. -/
theorem Does.closes {e : Effect} (h : w.Does d e) (hw : w.schedule.Coherent)
    (hs : w.schedule.Recollects) : w.Closes (d.endings w.schedule) e.1.schedule := by
  have hmoves := h.moves
  cases h with
  | @conclude id x ending tail live suits tacit =>
    have hstanding := Schedule.standing?_eq_some_iff.mpr ⟨x, live, rfl⟩
    obtain rfl : x.action.id = id := hw.named hstanding
    have hone : (Deed.conclude x.action.id ending).endings w.schedule =
        [(x.action.id, ending.state)] := by
      simp [Deed.endings, live, suits]
    exact hone ▸ closes_conclude hs live (hw.old hstanding) (ending.events x.action.id)
      ending.state
  | @conclude_refused id ending items refused tacit =>
    have hnone : (Deed.conclude id ending).endings w.schedule = [] := by
      cases hx : w.schedule.actions.get? id with
      | none => simp [Deed.endings, hx]
      | some x => simp [Deed.endings, hx, refused x hx]
    exact hnone ▸ World.closes_nil hs (.refl _) (.refl _)
  | fail key ids => exact closes_abandon hs hw.toSound key ids
  | _ => exact hmoves.closes_nil hs nofun nofun

theorem closes_carryOut (hw : w.schedule.Coherent) (hs : w.schedule.Recollects) (i : Item) :
    w.Closes (Moment.endings ⟨w, i⟩) (w.carryOut i).1.schedule :=
  (w.does_carryOut i).closes hw hs

/-- The endings of a moment are the actions that are live at it and not any more afterwards. -/
theorem mem_endings_iff (hw : w.schedule.Coherent) (hs : w.schedule.Recollects) (i : Item)
    (id : Nat) : id ∈ (Moment.endings ⟨w, i⟩).map Prod.fst ↔
      w.schedule.actions.get? id ≠ none ∧ (w.carryOut i).1.schedule.actions.get? id = none := by
  have hcloses := closes_carryOut hw hs i
  constructor
  · exact fun hid => ⟨(hcloses.live id hid).2, ((hcloses.past_iff id).mpr (.inr hid)).2⟩
  · rintro ⟨hlive, hgone⟩
    obtain ⟨x, hx⟩ := Option.ne_none_iff_exists'.mp hlive
    have hold := hw.old (Schedule.standing?_eq_some_iff.mpr ⟨x, hx, rfl⟩)
    have hnext := (w.does_carryOut i).moves.nextId_mono
    exact ((hcloses.past_iff id).mp ⟨Nat.lt_of_lt_of_le hold hnext, hgone⟩).resolve_left
      fun hpast => hlive hpast.2

/-! ## What is said of an action -/

/-- A command is answered, which is all that it leads to. -/
def Answers (w : World) (c : Command) (r : Reply) : Prop :=
  ∀ token, w.carryOut (.obey token c) = (w, [.reply token r])

/-- What is said of every identifier, if the actions of a list ended in its order and the last
`limit` of them are remembered. -/
structure Remembers (w : World) (limit : Nat) (es : List (Nat × ActionState)) : Prop where
  /-- No action ended twice. -/
  once : (es.map Prod.fst).Nodup
  /-- The actions that ended are those that were accepted and are not live. -/
  ended_iff : ∀ id, id ∈ es.map Prod.fst ↔ 0 < id ∧ w.Past id
  /-- No more are remembered than are to be. -/
  few : w.schedule.history.length ≤ limit
  /-- A live action is in the state in which it is. -/
  live : ∀ {id x}, w.schedule.actions.get? id = some x → w.schedule.stateOf? id = some x.state
  /-- An action that ended among the last ones is in its last state, and cancelling it does
  nothing. -/
  recent : ∀ {id last}, w.schedule.actions.get? id = none → (id, last) ∈ es.rtake limit →
    w.schedule.stateOf? id = some last ∧ w.Answers (.cancel id) (.flag false)
  /-- Of all others nothing is known, and cancelling them is refused. -/
  unknown : ∀ {id}, w.schedule.actions.get? id = none → id ∉ (es.rtake limit).map Prod.fst →
    w.schedule.stateOf? id = none ∧ w.Refuses (.cancel id) (.unknownAction id)

end World

namespace Schedule

variable {s : Schedule} {id : Nat} {last : ActionState}

/-- Where nobody is remembered twice, what is said of an ended action is what is remembered. -/
theorem ended?_eq_some_iff (h : (s.history.map Prod.fst).Nodup) :
    s.ended? id = some last ↔ (id, last) ∈ s.history := by
  unfold ended?
  rw [Option.map_eq_some_iff]
  constructor
  · rintro ⟨⟨i, state⟩, hfind, rfl⟩
    obtain rfl : i = id := by simpa using List.find?_some hfind
    exact List.mem_reverse.mp (List.mem_of_find?_eq_some hfind)
  · intro hmem
    have hsome : (s.history.reverse.find? fun e => e.1 = id).isSome = true :=
      List.find?_isSome.mpr ⟨(id, last), List.mem_reverse.mpr hmem, decide_eq_true rfl⟩
    obtain ⟨e, he⟩ := Option.isSome_iff_exists.mp hsome
    have hid : e.1 = id := by simpa using List.find?_some he
    have hsame : e = (id, last) :=
      List.inj_on_of_nodup_map h (List.mem_reverse.mp (List.mem_of_find?_eq_some he)) hmem hid
    exact ⟨e, he, by rw [hsame]⟩

/-- Nothing is said of who is not remembered. -/
theorem ended?_eq_none_iff : s.ended? id = none ↔ id ∉ s.history.map Prod.fst := by
  unfold ended?
  rw [Option.map_eq_none_iff, List.find?_eq_none]
  simp only [List.mem_reverse, decide_eq_true_eq, List.mem_map, not_exists, not_and]

end Schedule

namespace World

variable {w : World} {es : List (Nat × ActionState)} {limit : Nat}

/-- What is said of an action follows from what is remembered. -/
theorem remembers_of_history (once : (es.map Prod.fst).Nodup)
    (ended_iff : ∀ id, id ∈ es.map Prod.fst ↔ 0 < id ∧ w.Past id)
    (history : w.schedule.history = es.rtake limit) : w.Remembers limit es := by
  have hnodup : (w.schedule.history.map Prod.fst).Nodup := by
    rw [history]
    exact once.sublist ((List.drop_sublist _ _).map _)
  have hcancel {id : Nat} (hgone : w.schedule.actions.get? id = none) (token : Nat) :
      w.carryOut (.obey token (.cancel id)) = (w, [.reply token <|
        if (w.schedule.ended? id).isSome then .flag false else .refused (.unknownAction id)]) := by
    show w.cancel token id = _
    rw [cancel, hgone]
  have hstate {id : Nat} (hgone : w.schedule.actions.get? id = none) :
      w.schedule.stateOf? id = w.schedule.ended? id := by
    rw [Schedule.stateOf?, hgone, Option.map_none, Option.none_or]
  refine ⟨once, ended_iff, ?_, fun {id x} hx => ?_, fun {id last} hgone hmem => ?_,
    fun {id} hgone hnot => ?_⟩
  · rw [history, List.rtake, List.length_drop]
    omega
  · rw [Schedule.stateOf?, hx]
    rfl
  · have hended := (Schedule.ended?_eq_some_iff hnodup).mpr (history ▸ hmem)
    refine ⟨(hstate hgone).trans hended, fun token => ?_⟩
    rw [hcancel hgone, hended]
    rfl
  · have hended := Schedule.ended?_eq_none_iff.mpr (history ▸ hnot)
    refine ⟨(hstate hgone).trans hended, fun token => ?_⟩
    rw [hcancel hgone, hended]
    rfl

end World

/-! ## Every run -/

namespace Machine

variable {rule : Conduct} {policy : Policy} {localNodes : List String} {withholds : Bool}
  {limit : Nat} {disturbances : List Disturbance} {t : List Moment} {m : Machine} {w₀ : World}

/-- What is remembered is always the end of the list of all that ended. -/
theorem Course.history_eq
    (h : Course rule { World.fresh policy localNodes withholds limit with disturbances } t m) :
    ((terminations t).map Prod.fst).Nodup ∧
      (∀ id, id ∈ (terminations t).map Prod.fst ↔ 0 < id ∧ m.world.Past id) ∧
      m.world.schedule.history = (terminations t).rtake limit ∧
      m.world.schedule.historyLimit = limit := by
  induction h with
  | start =>
    refine ⟨List.nodup_nil, fun id => ?_, (List.rtake_nil limit).symm, rfl⟩
    refine iff_of_false (fun h => by cases h) ?_
    rintro ⟨hpos, hlt, -⟩
    exact absurd hlt (Nat.not_lt.mpr hpos)
  | ask _ _ _ ih => exact ih
  | answer _ _ _ ih => exact ih
  | @item t w i rest hc ih =>
    obtain ⟨honce, hended, hhistory, hlimit⟩ := ih
    have hcloses := World.closes_carryOut (hc.coherent (Schedule.coherent_empty limit))
      (hc.recollects (Nat.zero_le limit)) i
    rw [terminations_cons, List.map_append]
    refine ⟨List.nodup_append.mpr ⟨honce, hcloses.once, ?_⟩, fun id => ?_, ?_,
      hcloses.historyLimit.trans hlimit⟩
    · rintro id hid _ hnew rfl
      exact (hcloses.live id hnew).2 ((hended id).mp hid).2.2
    · -- no action is numbered zero
      have hzero : id ∈ (Moment.endings ⟨w, i⟩).map Prod.fst → 0 < id := fun hid => by
        rcases Nat.eq_zero_or_pos id with rfl | hpos
        · exact absurd (hc.past ⟨Nat.zero_lt_one, rfl⟩).2 (hcloses.live 0 hid).2
        · exact hpos
      have hpast : (step ⟨w, i :: rest⟩).world.Past id ↔
          w.Past id ∨ id ∈ (Moment.endings ⟨w, i⟩).map Prod.fst := hcloses.past_iff id
      rw [List.mem_append, hended, hpast]
      tauto
    · rw [step_cons, hcloses.history, hhistory, hlimit, rtake_append_rtake]

/-- In every run, with any limit: a live action is in the state in which it is; an action that is
among the last `limit` that ended is in its last state, and cancelling it does nothing; of every
other identifier nothing is known, and cancelling it is refused.  The actions that ended are those
that were live at a moment and were not any more after it, and each of them ended once. -/
theorem Course.remembers
    (h : Course rule { World.fresh policy localNodes withholds limit with disturbances } t m) :
    m.world.Remembers limit (terminations t) ∧
      ∀ x ∈ t, ∀ id, id ∈ x.endings.map Prod.fst ↔ x.world.schedule.actions.get? id ≠ none ∧
        (x.world.carryOut x.item).1.schedule.actions.get? id = none := by
  obtain ⟨honce, hended, hhistory, -⟩ := h.history_eq
  refine ⟨World.remembers_of_history honce hended hhistory, fun x hx => ?_⟩
  obtain ⟨t₁, t₀, rfl⟩ := List.append_of_mem hx
  obtain ⟨rest, hbefore⟩ := h.before
  exact World.mem_endings_iff (hbefore.coherent (Schedule.coherent_empty limit))
    (hbefore.recollects (Nat.zero_le limit)) x.item

/-! ### A grid that remembers one action -/

/-- A grid that remembers only one action, and in which somebody gives up a worker that there is not
as soon as a candidate is scored. -/
def forgetful : World :=
  { World.fresh .fifo [] false 1 with
    disturbances := [⟨fun _ _ _ _ => true, .lose (.permanent "m"), "d"⟩] }

/-- A worker with two units is offered. -/
def manning : Machine :=
  asked forgetful 0 (.addWorker (.permanent "n") (.cpus (1 + 1)) default)

/-- A task takes one of the units. -/
def staffing : Machine :=
  asked (manning.advance 5).world 1 (.submit (.single (.cpus 1) "h") .silent)

/-- Another task takes the other one. -/
def staffingMore : Machine :=
  asked (staffing.advance 9).world 2 (.submit (.single (.cpus 1) "h") .silent)

/-- The worker is lost. -/
def losingBoth : Machine :=
  asked (staffingMore.advance 8).world 3 (.loseWorker (.permanent "n"))

/-- A third task finds no worker. -/
def replacing : Machine :=
  asked (losingBoth.advance 7).world 4 (.submit (.single (.cpus 1) "h") .silent)

/-- All moments up to then, the latest first. -/
def replacingMoments : List Moment :=
  moments 8 replacing ++ (moments 7 losingBoth ++ (moments 8 staffingMore ++
    (moments 9 staffing ++ (moments 5 manning ++ []))))

theorem course_replacing :
    Course (.lively fun _ => True) forgetful replacingMoments
      ⟨(replacing.advance 8).world, []⟩ :=
  ((((Course.start.call 0 5 trivial (by decide +kernel)).call 1 9 trivial
    (by decide +kernel)).call 2 8 trivial (by decide +kernel)).call 3 7 trivial
    (by decide +kernel)).call 4 8 trivial (by decide +kernel)

/-- Both tasks ended at one moment.  The first of them is forgotten, the second one is remembered,
and the third one is live. -/
theorem remembers_replacing :
    let w := (replacing.advance 8).world
    (terminations replacingMoments = [(1, .failed .nodeLost), (2, .failed .nodeLost)] ∧
        w.schedule.stateOf? 1 = none ∧ w.schedule.stateOf? 2 = some (.failed .nodeLost) ∧
        w.schedule.stateOf? 3 = some .ready) ∧
      w.Remembers 1 (terminations replacingMoments) ∧
        ∀ x ∈ replacingMoments, ∀ id, id ∈ x.endings.map Prod.fst ↔
          x.world.schedule.actions.get? id ≠ none ∧
            (x.world.carryOut x.item).1.schedule.actions.get? id = none := by
  have hall := Course.remembers course_replacing
  exact ⟨by decide +kernel, hall⟩

end Machine

end TaskGrid
