import Mathlib.Data.List.Nodup
import TaskGrid.Proofs.Copies
import TaskGrid.Proofs.Notices

/-!
# The protocol of copies

Whoever asks for a copy gets a handle, which outlives the record of the copy: the record goes when
the copy ends, and the handle may be used again, by anybody who joined and under any name of the
datum.  What the answers say is all that there is to know: who listens to a copy, which copies are
in flight and who is told what when one of them ends can be read off the answers.

* `begunCopies`, `endedCopies`, `listenersOf`: the past of the copies in a course.
* `InFlight`: the records are those of the copies that were begun and have not ended.
* `CopyProtocol`: the protocol.
* `Machine.Course.copyProtocol`: the protocol along every course.
-/

namespace TaskGrid

/-! ## The past of copies -/

/-- The handles of the copies that were begun, the latest first. -/
def begunCopies (t : List Moment) : List CopyHandle :=
  t.filterMap fun m => m.copyStep?.bind CopyStep.begun?

/-- The copies that ended, the latest first. -/
def endedCopies (t : List Moment) : List Nat :=
  t.filterMap fun m => m.copyStep?.bind CopyStep.ended?

/-- Who listens to a copy, in the order in which they were accepted. -/
def listenersOf (t : List Moment) (id : Nat) : List String :=
  t.reverse.flatMap fun m => (m.copyStep?.map (CopyStep.listeners id)).getD []

/-- What a notice tells a listener of a copy: who is told, of which datum, and the outcome. -/
def Notice.outcome? : Notice → Option (String × String × CopyOutcome)
  | .copyEnded listener data outcome => some (listener, data, outcome)
  | _ => none

/-- What listeners of copies are told at a moment, in order. -/
def Moment.outcomes (m : Moment) : List (String × String × CopyOutcome) :=
  ((m.world.carryOut m.item).1.toldSince m.world.told).filterMap Notice.outcome?

section Steps

variable {m : Moment} {t : List Moment} {s : CopyStep}

theorem begunCopies_cons (m : Moment) (t : List Moment) :
    begunCopies (m :: t) = (m.copyStep?.bind CopyStep.begun?).toList ++ begunCopies t := by
  unfold begunCopies
  rw [List.filterMap_cons]
  cases m.copyStep?.bind CopyStep.begun? <;> rfl

theorem endedCopies_cons (m : Moment) (t : List Moment) :
    endedCopies (m :: t) = (m.copyStep?.bind CopyStep.ended?).toList ++ endedCopies t := by
  unfold endedCopies
  rw [List.filterMap_cons]
  cases m.copyStep?.bind CopyStep.ended? <;> rfl

theorem listenersOf_cons (m : Moment) (t : List Moment) (id : Nat) :
    listenersOf (m :: t) id =
      listenersOf t id ++ (m.copyStep?.map (CopyStep.listeners id)).getD [] := by
  unfold listenersOf
  rw [List.reverse_cons, List.flatMap_append, List.flatMap_singleton]

end Steps

/-! ## The copies in flight -/

/-- The records are those of the copies that were begun and have not ended. -/
structure InFlight (t : List Moment) (c : Catalog) : Prop where
  /-- To each target at most one copy of a datum is in flight. -/
  targets : ∀ k, ((c.copiesOf k).map Copy.target).Nodup
  /-- A copy in flight was begun. -/
  begun : ∀ {k x}, x ∈ c.copiesOf k → ⟨x.id, k, x.target, true⟩ ∈ begunCopies t
  /-- It has not ended. -/
  pending : ∀ {k x}, x ∈ c.copiesOf k → x.id ∉ endedCopies t
  /-- A copy that was begun is in flight until it ends. -/
  recorded : ∀ {h}, h ∈ begunCopies t → h.id ∉ endedCopies t →
    ∃ x ∈ c.copiesOf h.data, x.id = h.id ∧ x.target = h.target
  /-- Its listeners are those that were accepted. -/
  listeners : ∀ {k x}, x ∈ c.copiesOf k → x.listeners = listenersOf t x.id
  /-- Nobody listens to a copy to come. -/
  silent : ∀ {id}, c.lastCopy < id → listenersOf t id = []
  /-- Copies are numbered in the order in which they begin. -/
  old : ∀ {h}, h ∈ begunCopies t → h.id ≤ c.lastCopy
  /-- No number is used twice. -/
  ids : ((begunCopies t).map CopyHandle.id).Nodup
  /-- No copy ends twice. -/
  ended : (endedCopies t).Nodup
  /-- What ended was begun. -/
  known : ∀ {id}, id ∈ endedCopies t → ∃ h ∈ begunCopies t, h.id = id

namespace InFlight

open Catalog

variable {t : List Moment} {m : Moment} {c c' : Catalog} {s : CopyStep}

theorem start : InFlight [] {} where
  targets _ := List.nodup_nil
  begun h := by cases h
  pending h := by cases h
  recorded h := by cases h
  listeners h := by cases h
  silent _ := rfl
  old h := by cases h
  ids := List.nodup_nil
  ended := List.nodup_nil
  known h := by cases h

/-- A number stands for one record. -/
theorem eq_of_id (h : InFlight t c) {k j : String} {x y : Copy} (hx : x ∈ c.copiesOf k)
    (hy : y ∈ c.copiesOf j) (hid : x.id = y.id) : k = j ∧ x = y := by
  have hhandle := List.inj_on_of_nodup_map h.ids (h.begun hx) (h.begun hy) hid
  obtain rfl : k = j := congrArg CopyHandle.data hhandle
  exact ⟨rfl, List.inj_on_of_nodup_map (h.targets k) hx hy (congrArg CopyHandle.target hhandle)⟩

/-- A moment at which nothing happens to a copy. -/
theorem other (h : InFlight t c) (hm : m.copyStep? = none) (hsame : c.SameCopies c') :
    InFlight (m :: t) c' := by
  have hb : begunCopies (m :: t) = begunCopies t := by
    rw [begunCopies_cons, hm]
    rfl
  have he : endedCopies (m :: t) = endedCopies t := by
    rw [endedCopies_cons, hm]
    rfl
  have hl (id : Nat) : listenersOf (m :: t) id = listenersOf t id := by
    rw [listenersOf_cons, hm]
    exact List.append_nil _
  constructor <;> simp only [hb, he, hl, hsame.copiesOf, hsame.lastCopy]
  exacts [h.targets, h.begun, h.pending, h.recorded, h.listeners, h.silent, h.old, h.ids, h.ended,
    h.known]

/-- A copy begins. -/
theorem step_begun (h : InFlight t c) {k : String} {target : Replica} {listener : Option String}
    (hm : m.copyStep? = some (.started ⟨c.lastCopy + 1, k, target, true⟩ listener))
    (fresh : ∀ x ∈ c.copiesOf k, x.target ≠ target)
    (copiesOf : ∀ j, c'.copiesOf j = if j = k then
      c.copiesOf k ++ [⟨c.lastCopy + 1, target, listener.toList⟩] else c.copiesOf j)
    (lastCopy : c'.lastCopy = c.lastCopy + 1) : InFlight (m :: t) c' := by
  have hb : begunCopies (m :: t) = ⟨c.lastCopy + 1, k, target, true⟩ :: begunCopies t := by
    rw [begunCopies_cons, hm]
    rfl
  have he : endedCopies (m :: t) = endedCopies t := by
    rw [endedCopies_cons, hm]
    rfl
  have hl (id : Nat) : listenersOf (m :: t) id =
      listenersOf t id ++ if c.lastCopy + 1 = id then listener.toList else [] := by
    rw [listenersOf_cons, hm]
    rfl
  -- the number is greater than all before
  have hended {id : Nat} (hid : id ∈ endedCopies t) : id ≤ c.lastCopy := by
    obtain ⟨b, hb, rfl⟩ := h.known hid
    exact h.old hb
  have hmem {x : Copy} {j : String} (hx : x ∈ c'.copiesOf j) :
      x ∈ c.copiesOf j ∨ j = k ∧ x = ⟨c.lastCopy + 1, target, listener.toList⟩ := by
    rw [copiesOf] at hx
    split at hx
    · next hj =>
      subst hj
      exact (List.mem_append.mp hx).imp_right fun hx => ⟨rfl, List.mem_singleton.mp hx⟩
    · exact .inl hx
  have hold {x : Copy} {j : String} (hx : x ∈ c.copiesOf j) : x ∈ c'.copiesOf j := by
    rw [copiesOf]
    split
    · next hj => exact List.mem_append_left _ (hj ▸ hx)
    · exact hx
  constructor
  case targets =>
    intro j
    rw [copiesOf]
    split
    · rw [List.map_append, List.nodup_append]
      refine ⟨h.targets k, List.nodup_singleton _, fun a ha b hb => ?_⟩
      obtain ⟨x, hx, rfl⟩ := List.mem_map.mp ha
      rw [List.mem_singleton.mp hb]
      exact fresh x hx
    · exact h.targets j
  case begun =>
    intro j x hx
    rw [hb]
    rcases hmem hx with hx | ⟨rfl, rfl⟩
    · exact List.mem_cons_of_mem _ (h.begun hx)
    · exact List.mem_cons_self
  case pending =>
    intro j x hx
    rw [he]
    rcases hmem hx with hx | ⟨rfl, rfl⟩
    · exact h.pending hx
    · exact fun hid => absurd (hended hid) (Nat.not_succ_le_self _)
  case recorded =>
    intro b hmemb hnot
    rw [hb] at hmemb
    rw [he] at hnot
    rcases List.mem_cons.mp hmemb with rfl | hmemb
    · refine ⟨⟨c.lastCopy + 1, target, listener.toList⟩, ?_, rfl, rfl⟩
      rw [copiesOf, if_pos rfl]
      exact List.mem_append_right _ (List.mem_singleton_self _)
    · obtain ⟨x, hx, hid⟩ := h.recorded hmemb hnot
      exact ⟨x, hold hx, hid⟩
  case listeners =>
    intro j x hx
    rw [hl]
    rcases hmem hx with hx | ⟨rfl, rfl⟩
    · have hle : x.id ≤ c.lastCopy := h.old (h.begun hx)
      rw [if_neg (Nat.ne_of_gt (Nat.lt_succ_of_le hle)), List.append_nil]
      exact h.listeners hx
    · rw [if_pos rfl, h.silent (Nat.lt_succ_self _), List.nil_append]
  case silent =>
    intro id hid
    rw [lastCopy] at hid
    rw [hl, if_neg (Nat.ne_of_lt hid), h.silent (Nat.lt_of_succ_lt hid), List.append_nil]
  case old =>
    intro b hmemb
    rw [hb] at hmemb
    rw [lastCopy]
    rcases List.mem_cons.mp hmemb with rfl | hmemb
    · exact Nat.le_refl _
    · exact Nat.le_succ_of_le (h.old hmemb)
  case ids =>
    rw [hb, List.map_cons, List.nodup_cons]
    refine ⟨fun hmem => ?_, h.ids⟩
    obtain ⟨b, hb, hid⟩ := List.mem_map.mp hmem
    have := h.old hb
    dsimp only at hid
    omega
  case ended => exact he ▸ h.ended
  case known =>
    intro id hid
    rw [he] at hid
    obtain ⟨b, hmemb, hid⟩ := h.known hid
    exact ⟨b, hb ▸ List.mem_cons_of_mem _ hmemb, hid⟩

/-- Somebody begins to listen to a copy in flight, or it is joined by somebody who does not. -/
theorem step_heard (h : InFlight t c) {k : String} {x : Copy} {l : List String}
    (hm : m.copyStep? = some s) (mem : x ∈ c.copiesOf k)
    (copiesOf : ∀ j, c'.copiesOf j =
      if j = k then (c.copiesOf k).map (Copy.hear x.id l) else c.copiesOf j)
    (lastCopy : c'.lastCopy = c.lastCopy) (begun? : s.begun? = none) (ended? : s.ended? = none)
    (listeners : ∀ id, s.listeners id = if x.id = id then l else []) : InFlight (m :: t) c' := by
  have hb : begunCopies (m :: t) = begunCopies t := by
    rw [begunCopies_cons, hm, Option.bind_some, begun?]
    rfl
  have he : endedCopies (m :: t) = endedCopies t := by
    rw [endedCopies_cons, hm, Option.bind_some, ended?]
    rfl
  have hl (id : Nat) : listenersOf (m :: t) id =
      listenersOf t id ++ if x.id = id then l else [] := by
    rw [listenersOf_cons, hm, Option.map_some, Option.getD_some, listeners]
  -- a record elsewhere has another number
  have hall (j : String) : c'.copiesOf j = (c.copiesOf j).map (Copy.hear x.id l) := by
    rw [copiesOf]
    split
    · next hj => rw [hj]
    · next hj =>
      have hid : ∀ y ∈ c.copiesOf j, Copy.hear x.id l y = y := fun y hy =>
        if_neg fun hid => hj (h.eq_of_id hy mem hid).1
      rw [List.map_congr_left hid, List.map_id']
  have hmem {y : Copy} {j : String} (hy : y ∈ c'.copiesOf j) :
      ∃ z ∈ c.copiesOf j, z.hear x.id l = y := List.mem_map.mp (hall j ▸ hy)
  constructor
  case targets =>
    intro j
    have htarget : Copy.target ∘ Copy.hear x.id l = Copy.target :=
      funext fun y => Copy.target_hear x.id l y
    rw [hall, List.map_map, htarget]
    exact h.targets j
  case begun =>
    intro j y hy
    obtain ⟨z, hz, rfl⟩ := hmem hy
    rw [hb, Copy.id_hear, Copy.target_hear]
    exact h.begun hz
  case pending =>
    intro j y hy
    obtain ⟨z, hz, rfl⟩ := hmem hy
    rw [he, Copy.id_hear]
    exact h.pending hz
  case recorded =>
    intro b hmemb hnot
    obtain ⟨z, hz, hid, htarget⟩ := h.recorded (hb ▸ hmemb) (he ▸ hnot)
    refine ⟨z.hear x.id l, ?_, by rw [Copy.id_hear, hid], by rw [Copy.target_hear, htarget]⟩
    rw [hall]
    exact List.mem_map_of_mem hz
  case listeners =>
    intro j y hy
    obtain ⟨z, hz, rfl⟩ := hmem hy
    rw [hl, Copy.listeners_hear, Copy.id_hear, h.listeners hz]
  case silent =>
    intro id hid
    rw [lastCopy] at hid
    have hx : x.id ≠ id := Nat.ne_of_lt (Nat.lt_of_le_of_lt (h.old (h.begun mem)) hid)
    rw [hl, if_neg hx, h.silent hid, List.append_nil]
  case old => exact fun hmemb => lastCopy ▸ h.old (hb ▸ hmemb)
  case ids => exact hb ▸ h.ids
  case ended => exact he ▸ h.ended
  case known => exact fun hid => hb ▸ h.known (he ▸ hid)

/-- A copy in flight ends. -/
theorem step_ended (h : InFlight t c) {k : String} {x : Copy} {outcome : CopyOutcome}
    (hm : m.copyStep? = some (.ended x.id outcome)) (mem : x ∈ c.copiesOf k)
    (copiesOf : ∀ j, c'.copiesOf j =
      if j = k then (c.copiesOf k).filter (fun y => y.id ≠ x.id) else c.copiesOf j)
    (lastCopy : c'.lastCopy = c.lastCopy) : InFlight (m :: t) c' := by
  have hb : begunCopies (m :: t) = begunCopies t := by
    rw [begunCopies_cons, hm]
    rfl
  have he : endedCopies (m :: t) = x.id :: endedCopies t := by
    rw [endedCopies_cons, hm]
    rfl
  have hl (id : Nat) : listenersOf (m :: t) id = listenersOf t id := by
    rw [listenersOf_cons, hm]
    exact List.append_nil _
  -- a record elsewhere has another number
  have hall (j : String) : c'.copiesOf j = (c.copiesOf j).filter fun y => y.id ≠ x.id := by
    rw [copiesOf]
    split
    · next hj => rw [hj]
    · next hj =>
      have hne : ∀ y ∈ c.copiesOf j, decide (y.id ≠ x.id) = true := fun y hy =>
        decide_eq_true fun hid => hj (h.eq_of_id hy mem hid).1
      exact (List.filter_eq_self.mpr hne).symm
  have hmem {y : Copy} {j : String} (hy : y ∈ c'.copiesOf j) : y ∈ c.copiesOf j ∧ y.id ≠ x.id := by
    obtain ⟨hy, hne⟩ := List.mem_filter.mp (hall j ▸ hy)
    exact ⟨hy, of_decide_eq_true hne⟩
  constructor
  case targets =>
    intro j
    rw [hall]
    exact (h.targets j).sublist (List.filter_sublist.map _)
  case begun => exact fun hy => hb ▸ h.begun (hmem hy).1
  case pending =>
    intro j y hy
    rw [he]
    exact List.not_mem_cons_of_ne_of_not_mem (hmem hy).2 (h.pending (hmem hy).1)
  case recorded =>
    intro b hmemb hnot
    rw [he, List.mem_cons, not_or] at hnot
    obtain ⟨z, hz, hid, htarget⟩ := h.recorded (hb ▸ hmemb) hnot.2
    refine ⟨z, ?_, hid, htarget⟩
    rw [hall]
    exact List.mem_filter.mpr ⟨hz, decide_eq_true (hid ▸ hnot.1)⟩
  case listeners => exact fun hy => (h.listeners (hmem hy).1).trans (hl _).symm
  case silent => exact fun hid => (hl _).trans (h.silent (lastCopy ▸ hid))
  case old => exact fun hmemb => lastCopy ▸ h.old (hb ▸ hmemb)
  case ids => exact hb ▸ h.ids
  case ended =>
    rw [he]
    exact List.nodup_cons.mpr ⟨h.pending mem, h.ended⟩
  case known =>
    intro id hid
    rw [hb]
    rw [he] at hid
    rcases List.mem_cons.mp hid with rfl | hid
    · exact ⟨_, h.begun mem, rfl⟩
    · exact h.known hid

/-- Whatever an item does to the records keeps the account of them. -/
theorem step (h : InFlight t c) (hmove : c.CopyMove m.copyStep? c') : InFlight (m :: t) c' := by
  generalize hm : m.copyStep? = s? at hmove
  cases hmove with
  | other same => exact h.other hm same
  | begun fresh copiesOf lastCopy => exact h.step_begun hm fresh copiesOf lastCopy
  | heard mem copiesOf lastCopy begun? ended? listeners =>
    exact h.step_heard hm mem copiesOf lastCopy begun? ended? listeners
  | ended mem copiesOf lastCopy => exact h.step_ended hm mem copiesOf lastCopy

end InFlight

/-! ## What listeners are told -/

namespace World

variable {w w' : World} {i : Item}

theorem toldSince_of_log {l : List Notice} (h : w'.log = l ++ w.log) :
    w'.toldSince w.told = l.reverse := by
  rw [toldSince, told, h, List.length_append, Nat.add_sub_cancel, List.take_left]

/-- A copy is ended by the command that finishes it, or by one that lets it fail. -/
theorem copyStep?_eq_ended {id : Nat} {outcome : CopyOutcome}
    (h : Moment.copyStep? ⟨w, i⟩ = some (.ended id outcome)) :
    ∃ token data, (∃ r, i = .obey token (.finishCopy id data) ∧ outcome = .completed r ∧
        Item.lastReply? (w.finishCopy token id data).2 = some (.replica (some r))) ∨
      ∃ reason, i = .obey token (.failCopy id data reason) ∧ outcome = .failed reason ∧
        Item.lastReply? (w.failCopy token id data reason).2 = some (.flag true) := by
  cases i with
  | obey token o =>
    obtain ⟨r, hr, hstep⟩ := Option.bind_eq_some_iff.mp h
    unfold Command.copyStep? at hstep
    split at hstep <;> cases hstep
    · exact ⟨token, _, .inl ⟨_, rfl, rfl, hr⟩⟩
    · exact ⟨token, _, .inr ⟨_, rfl, rfl, hr⟩⟩
  | _ => cases h

theorem finishCopy_eq {token id : Nat} {data : String} {r : Replica}
    (h : Item.lastReply? (w.finishCopy token id data).2 = some (.replica (some r))) :
    ∃ e, w.catalog.finishCopy? data id = some e ∧ e.copy.target = r ∧
      (w.finishCopy token id data).1 = (w.endCopy e (.completed r)).1 := by
  unfold finishCopy at h ⊢
  split at h
  · cases h
  · next e he =>
    dsimp only at h
    rw [Item.lastReply?_append_reply] at h
    cases h
    exact ⟨e, he, rfl, rfl⟩

theorem failCopy_eq {token id : Nat} {data reason : String}
    (h : Item.lastReply? (w.failCopy token id data reason).2 = some (.flag true)) :
    ∃ e, w.catalog.retireCopy? data id = some e ∧
      (w.failCopy token id data reason).1 = (w.endCopy e (.failed reason)).1 := by
  unfold failCopy at h ⊢
  split at h
  · cases h
  · next e he => exact ⟨e, he, rfl⟩

theorem finishCopy_of_none {token id : Nat} {data : String}
    (h : w.catalog.finishCopy? data id = none) :
    w.finishCopy token id data = (w, [.reply token (.replica none)]) := by
  unfold finishCopy
  rw [h]

theorem failCopy_of_none {token id : Nat} {data reason : String}
    (h : w.catalog.retireCopy? data id = none) :
    w.failCopy token id data reason = (w, [.reply token (.flag false)]) := by
  unfold failCopy
  rw [h]

theorem copyStep?_finishCopy {token id : Nat} {data : String} {e : Catalog.CopyEnded}
    (h : w.catalog.finishCopy? data id = some e) :
    Moment.copyStep? ⟨w, .obey token (.finishCopy id data)⟩ =
      some (.ended id (.completed e.copy.target)) := by
  have hreply : Item.lastReply? (w.finishCopy token id data).2 =
      some (.replica e.copy.target) := by
    unfold finishCopy
    rw [h]
    exact Item.lastReply?_append_reply _ _ _
  rw [copyStep?_obey (e := w.finishCopy token id data) rfl, hreply]
  rfl

theorem copyStep?_failCopy {token id : Nat} {data reason : String} {e : Catalog.CopyEnded}
    (h : w.catalog.retireCopy? data id = some e) :
    Moment.copyStep? ⟨w, .obey token (.failCopy id data reason)⟩ =
      some (.ended id (.failed reason)) := by
  have hreply : Item.lastReply? (w.failCopy token id data reason).2 = some (.flag true) := by
    unfold failCopy
    rw [h]
    exact Item.lastReply?_append_reply _ _ _
  rw [copyStep?_obey (e := w.failCopy token id data reason) rfl, hreply]
  rfl

/-- The listeners of a copy that ends are told. -/
theorem outcomes_endCopy (w : World) (e : Catalog.CopyEnded) (outcome : CopyOutcome) :
    ((w.endCopy e outcome).1.toldSince w.told).filterMap Notice.outcome? =
      e.copy.listeners.map fun l => (l, e.canonical, outcome) := by
  have htold : (w.endCopy e outcome).1.toldSince w.told =
      e.copy.listeners.map fun l => .copyEnded l e.canonical outcome :=
    toldSince_noteAll { w with catalog := e.catalog } _
  rw [htold, List.filterMap_map]
  exact congrFun List.filterMap_eq_map' _

/-- The end of a copy tells its listeners. -/
theorem outcomes_of_ended {id : Nat} {outcome : CopyOutcome}
    (h : Moment.copyStep? ⟨w, i⟩ = some (.ended id outcome)) :
    ∃ k, ∃ x ∈ w.catalog.copiesOf k, x.id = id ∧ (∀ r, outcome = .completed r → r = x.target) ∧
      Moment.outcomes ⟨w, i⟩ = x.listeners.map fun l => (l, k, outcome) := by
  obtain ⟨token, data, ⟨r, rfl, rfl, hr⟩ | ⟨reason, rfl, rfl, hr⟩⟩ := copyStep?_eq_ended h
  · obtain ⟨e, he, rfl, heq⟩ := finishCopy_eq hr
    obtain ⟨⟨e', he', hk, hx, -⟩, -⟩ := Catalog.finishCopy?_eq_some he
    obtain ⟨-, hmem, hid, -⟩ := Catalog.retireCopy?_eq_some he'
    rw [hk, hx] at hmem
    refine ⟨e.canonical, e.copy, hmem, hx ▸ hid,
      fun r hr => (CopyOutcome.completed.inj hr).symm, ?_⟩
    rw [← outcomes_endCopy w e, ← heq]
    rfl
  · obtain ⟨e, he, heq⟩ := failCopy_eq hr
    obtain ⟨-, hmem, hid, -⟩ := Catalog.retireCopy?_eq_some he
    refine ⟨e.canonical, e.copy, hmem, hid, fun r hr => (by cases hr), ?_⟩
    rw [← outcomes_endCopy w e, ← heq]
    rfl

/-- A copy that finished is a replica. -/
theorem landed_of_completed {token id : Nat} {data : String} {r : Replica}
    (h : Moment.copyStep? ⟨w, .obey token (.finishCopy id data)⟩ =
      some (.ended id (.completed r))) :
    ∃ d, (w.carryOut (.obey token (.finishCopy id data))).1.catalog.datum? data = some d ∧
      r ∈ d.replicas := by
  obtain ⟨token', data', ⟨r', hi, ho, hr⟩ | ⟨reason, hi, -⟩⟩ := copyStep?_eq_ended h
  · cases hi
    cases ho
    obtain ⟨e, he, rfl, heq⟩ := finishCopy_eq hr
    obtain ⟨-, d, hd, hmem⟩ := Catalog.finishCopy?_eq_some he
    refine ⟨d, ?_, hmem⟩
    rw [show (w.carryOut (.obey token (.finishCopy id data))).1.catalog = e.catalog from
      (congrArg World.catalog heq).trans (catalog_endCopy w e _)]
    exact hd
  · cases hi

/-- Where no copy ends, nobody is told of one. -/
theorem outcomes_eq_nil (hi : ∀ n, i = .note n → n.isRoutine = true)
    (h : ∀ id outcome, Moment.copyStep? ⟨w, i⟩ ≠ some (.ended id outcome)) :
    Moment.outcomes ⟨w, i⟩ = [] := by
  have hsame (hw : (w.carryOut i).1 = w) : Moment.outcomes ⟨w, i⟩ = [] := by
    rw [Moment.outcomes]
    dsimp only
    rw [hw, toldSince_of_log (l := []) rfl]
    rfl
  -- what no item but the end of a copy writes
  have hwrites (hno : ∀ l k o, ¬ i.Writes (.copyEnded l k o)) : Moment.outcomes ⟨w, i⟩ = [] := by
    obtain ⟨l, hl, hw⟩ := w.log_carryOut i
    rw [Moment.outcomes, toldSince_of_log hl, List.filterMap_eq_nil_iff]
    intro n hn
    cases n with
    | copyEnded l k o => exact absurd (hw _ (List.mem_reverse.mp hn)) (hno l k o)
    | _ => rfl
  by_cases hends : ∃ l k o, i.Writes (.copyEnded l k o)
  · obtain ⟨l, k, o, hw⟩ := hends
    obtain rfl | ⟨token, id, data, rfl | ⟨reason, rfl⟩⟩ := hw.of_copyEnded
    · cases hi _ rfl
    · cases he : w.catalog.finishCopy? data id with
      | none => exact hsame (congrArg Prod.fst (finishCopy_of_none he))
      | some e => exact absurd (copyStep?_finishCopy he) (h _ _)
    · cases he : w.catalog.retireCopy? data id with
      | none => exact hsame (congrArg Prod.fst (failCopy_of_none he))
      | some e => exact absurd (copyStep?_failCopy he) (h _ _)
  · exact hwrites fun l k o hw => hends ⟨l, k, o, hw⟩

end World

/-! ## The protocol -/

/-- The protocol of copies, in the moments that lead to a world. -/
structure CopyProtocol (t : List Moment) (w : World) : Prop where
  /-- To each target at most one copy of a datum is in flight. -/
  targets : ∀ k, ((w.catalog.copiesOf k).map Copy.target).Nodup
  /-- Copies in flight have different numbers, also those of different data. -/
  distinct : ∀ {k j x y}, x ∈ w.catalog.copiesOf k → y ∈ w.catalog.copiesOf j → x.id = y.id →
    k = j ∧ x = y
  /-- A number is never given to a second copy. -/
  ids : ((begunCopies t).map CopyHandle.id).Nodup
  /-- The copies in flight are those that were begun and have not ended. -/
  inFlight : ∀ {k id target}, (∃ x ∈ w.catalog.copiesOf k, x.id = id ∧ x.target = target) ↔
    ⟨id, k, target, true⟩ ∈ begunCopies t ∧ id ∉ endedCopies t
  /-- Whoever asks for a copy of a registered datum gets a handle.  It is that of the copy in flight
  to the target, or of a new copy, with a new number, if none is in flight there. -/
  starts : ∀ {name d} token target listener, w.catalog.datum? name = some d → ∃ h,
    Moment.copyStep? ⟨w, .obey token (.startCopy name target listener)⟩ =
        some (.started h listener) ∧
      w.catalog.canonical? name = some h.data ∧ h.target = target ∧
      (h.isNew = true ↔ ∀ x ∈ d.copies, x.target ≠ target) ∧
      (h.isNew = true → ∀ b ∈ begunCopies t, b.id ≠ h.id) ∧
      (h.isNew = false → ∃ x ∈ d.copies, x.target = target ∧ x.id = h.id)
  /-- A listener is accepted only by a copy that was begun and has not ended. -/
  accepted : ∀ {t₁ m t₀ s id}, t = t₁ ++ m :: t₀ → m.copyStep? = some s → s.listeners id ≠ [] →
    (∃ h ∈ begunCopies (m :: t₀), h.id = id) ∧ id ∉ endedCopies t₀
  /-- When a copy ends, all its listeners are told, each once and in the order in which they were
  accepted, that it is at its target, or why it failed. -/
  told : ∀ {t₁ m t₀ id outcome}, t = t₁ ++ m :: t₀ → m.copyStep? = some (.ended id outcome) →
    ∃ h ∈ begunCopies t₀, h.id = id ∧ (∀ r, outcome = .completed r → r = h.target) ∧
      m.outcomes = (listenersOf t₀ id).map fun l => (l, h.data, outcome)
  /-- At no other moment is anybody told of a copy. -/
  silent : ∀ {m}, m ∈ t → (∀ id outcome, m.copyStep? ≠ some (.ended id outcome)) → m.outcomes = []
  /-- No copy ends twice. -/
  once : (endedCopies t).Nodup
  /-- A copy that finished is a replica. -/
  landed : ∀ {m token id data r}, m ∈ t → m.item = .obey token (.finishCopy id data) →
    m.copyStep? = some (.ended id (.completed r)) →
    ∃ d, (m.world.carryOut m.item).1.catalog.datum? data = some d ∧ r ∈ d.replicas
  /-- A copy in flight can be finished, or fail, under every name of its datum. -/
  ends : ∀ {name d x} token, w.catalog.datum? name = some d → x ∈ d.copies →
    Moment.copyStep? ⟨w, .obey token (.finishCopy x.id name)⟩ =
        some (.ended x.id (.completed x.target)) ∧
      ∀ reason, Moment.copyStep? ⟨w, .obey token (.failCopy x.id name reason)⟩ =
        some (.ended x.id (.failed reason))
  /-- To finish a copy that has ended, or let it fail, does nothing. -/
  inert : ∀ {id} token data, id ∈ endedCopies t →
    w.carryOut (.obey token (.finishCopy id data)) = (w, [.reply token (.replica none)]) ∧
      ∀ reason, w.carryOut (.obey token (.failCopy id data reason)) =
        (w, [.reply token (.flag false)])

namespace World

open Catalog

variable {w : World} {t : List Moment}

/-- Whoever asks for a copy gets a handle. -/
theorem exists_handle (h : InFlight t w.catalog) {name : String} {d : Datum} (token : Nat)
    (target : Replica) (listener : Option String) (hd : w.catalog.datum? name = some d) :
    ∃ b, Moment.copyStep? ⟨w, .obey token (.startCopy name target listener)⟩ =
        some (.started b listener) ∧
      w.catalog.canonical? name = some b.data ∧ b.target = target ∧
      (b.isNew = true ↔ ∀ x ∈ d.copies, x.target ≠ target) ∧
      (b.isNew = true → ∀ b' ∈ begunCopies t, b'.id ≠ b.id) ∧
      (b.isNew = false → ∃ x ∈ d.copies, x.target = target ∧ x.id = b.id) := by
  obtain ⟨⟨b, c'⟩, hs⟩ := exists_startCopy? hd target listener
  obtain ⟨-, htarget, hk, -, hnew, hjoined⟩ := startCopy?_eq_some hs
  have hcopies : w.catalog.copiesOf b.data = d.copies := by
    obtain ⟨k, hk', hd⟩ := Option.bind_eq_some_iff.mp hd
    obtain rfl : k = b.data := Option.some.inj (hk'.symm.trans hk)
    exact copiesOf_of_get? hd
  rw [hcopies] at hnew hjoined
  have hstep : Moment.copyStep? ⟨w, .obey token (.startCopy name target listener)⟩ =
      some (.started b listener) := by
    rw [copyStep?_obey (e := w.startCopy token name target listener) rfl, startCopy, hs]
    rfl
  refine ⟨b, hstep, hk, htarget, ⟨fun hn => (hnew hn).2, fun hall => ?_⟩, fun hn b' hb' => ?_,
    hjoined⟩
  · cases hn : b.isNew with
    | true => rfl
    | false =>
      obtain ⟨x, hx, he, -⟩ := hjoined hn
      exact absurd he (hall x hx)
  · rw [(hnew hn).1]
    exact Nat.ne_of_lt (Nat.lt_succ_of_le (h.old hb'))

/-- A copy in flight can be finished, or fail, under every name of its datum. -/
theorem copyStep?_of_mem (h : InFlight t w.catalog) {name : String} {d : Datum} {x : Copy}
    (token : Nat) (hd : w.catalog.datum? name = some d) (hx : x ∈ d.copies) :
    Moment.copyStep? ⟨w, .obey token (.finishCopy x.id name)⟩ =
        some (.ended x.id (.completed x.target)) ∧
      ∀ reason, Moment.copyStep? ⟨w, .obey token (.failCopy x.id name reason)⟩ =
        some (.ended x.id (.failed reason)) := by
  obtain ⟨e, he⟩ := exists_retireCopy? hd hx
  obtain ⟨-, hmem, hid, -⟩ := retireCopy?_eq_some he
  obtain ⟨k, -, hk⟩ := Option.bind_eq_some_iff.mp hd
  obtain ⟨-, hcopy⟩ := h.eq_of_id hmem (copiesOf_of_get? hk ▸ hx) hid
  refine ⟨?_, fun reason => copyStep?_failCopy he⟩
  have hfinish : ∃ f, w.catalog.finishCopy? name x.id = some f ∧ f.copy = e.copy := by
    unfold finishCopy?
    rw [he]
    exact ⟨_, rfl, rfl⟩
  obtain ⟨f, hf, hsame⟩ := hfinish
  rw [copyStep?_finishCopy hf, hsame, hcopy]

/-- A listener is accepted only by a copy that was begun and has not ended. -/
theorem exists_begun_of_listeners {i : Item} {s : CopyStep} {id : Nat} (hl : w.catalog.Listed)
    (h : InFlight t w.catalog) (hs : Moment.copyStep? ⟨w, i⟩ = some s)
    (hid : s.listeners id ≠ []) :
    (∃ b ∈ begunCopies (⟨w, i⟩ :: t), b.id = id) ∧ id ∉ endedCopies t := by
  have hmove := copyMove_carryOut hl i
  rw [hs] at hmove
  rw [begunCopies_cons, hs]
  cases hmove with
  | @begun k target listener _ fresh copiesOf lastCopy =>
    obtain rfl : w.catalog.lastCopy + 1 = id :=
      Decidable.byContradiction fun hne => hid (if_neg hne)
    refine ⟨⟨_, List.mem_cons_self, rfl⟩, fun hended => ?_⟩
    obtain ⟨b, hb, he⟩ := h.known hended
    exact absurd (h.old hb) (he ▸ Nat.not_succ_le_self _)
  | heard mem copiesOf lastCopy begun? ended? listeners =>
    rw [listeners] at hid
    obtain rfl := Decidable.byContradiction fun hne => hid (if_neg hne)
    exact ⟨⟨_, List.mem_append_right _ (h.begun mem), rfl⟩, h.pending mem⟩
  | ended => exact absurd rfl hid

end World

namespace Machine

variable {rule : Conduct} {policy : Policy} {localNodes : List String} {withholds : Bool}
  {limit : Nat} {disturbances : List Disturbance} {t : List Moment} {m : Machine}

/-- Along a course the records are those of the copies that were begun and have not ended. -/
theorem Course.inFlight
    (h : Course rule { World.fresh policy localNodes withholds limit with disturbances } t m) :
    m.world.catalog.Listed ∧ InFlight t m.world.catalog := by
  induction h with
  | start => exact ⟨Catalog.listed_empty, .start⟩
  | ask _ _ _ ih => exact ih
  | @item t w i rest _ ih =>
    rw [step_cons]
    exact ⟨(w.announces_carryOut i).listed ih.1, ih.2.step (World.copyMove_carryOut ih.1 i)⟩
  | answer _ _ _ ih => exact ih

/-- Copies follow their protocol, whatever else is done and whatever names are linked to. -/
theorem Course.copyProtocol
    (h : Course rule { World.fresh policy localNodes withholds limit with disturbances } t m) :
    CopyProtocol t m.world := by
  have hnow := h.inFlight.2
  constructor
  case targets => exact hnow.targets
  case distinct => exact hnow.eq_of_id
  case ids => exact hnow.ids
  case once => exact hnow.ended
  case inFlight =>
    intro k id target
    refine ⟨?_, fun ⟨hb, he⟩ => hnow.recorded hb he⟩
    rintro ⟨x, hx, rfl, rfl⟩
    exact ⟨hnow.begun hx, hnow.pending hx⟩
  case starts =>
    intro name d token target listener hd
    exact World.exists_handle hnow token target listener hd
  case accepted =>
    intro t₁ x t₀ s id ht hs hid
    subst ht
    obtain ⟨rest, hbefore⟩ := h.before
    obtain ⟨hl, hthen⟩ := hbefore.inFlight
    exact World.exists_begun_of_listeners hl hthen hs hid
  case told =>
    intro t₁ x t₀ id outcome ht hs
    subst ht
    obtain ⟨rest, hbefore⟩ := h.before
    obtain ⟨k, y, hy, rfl, hr, hout⟩ := World.outcomes_of_ended hs
    have hthen := hbefore.inFlight.2
    exact ⟨_, hthen.begun hy, rfl, hr, hthen.listeners hy ▸ hout⟩
  case silent =>
    intro x hx hs
    obtain ⟨t₁, t₀, rfl⟩ := List.append_of_mem hx
    obtain ⟨rest, hbefore⟩ := h.before
    exact World.outcomes_eq_nil (fun n hn => hbefore.isRoutine (hn ▸ List.mem_cons_self)) hs
  case landed =>
    intro x token id data r _ hi hs
    obtain ⟨w, i⟩ := x
    obtain rfl : i = .obey token (.finishCopy id data) := hi
    exact World.landed_of_completed hs
  case ends => exact fun token hd hx => World.copyStep?_of_mem hnow token hd hx
  case inert =>
    intro id token data hid
    have hnone : m.world.catalog.retireCopy? data id = none :=
      Catalog.retireCopy?_eq_none fun k _ x hx he => hnow.pending hx (he ▸ hid)
    have hfinish : m.world.catalog.finishCopy? data id = none := by
      rw [Catalog.finishCopy?, hnone]
      rfl
    exact ⟨World.finishCopy_of_none hfinish, fun reason => World.failCopy_of_none hnone⟩

/-! ### A copy that is joined under another name -/

/-- A datum is registered. -/
def naming : Machine := asked (.fresh .fifo [] false 8) 0 (.register "x")

/-- A further name of it is linked. -/
def aliasing : Machine := asked (naming.advance 2).world 1 (.link "y" "x")

/-- A copy of it is started. -/
def copying : Machine :=
  asked (aliasing.advance 2).world 2 (.startCopy "x" (.ownFile "n" "/x") (some "a"))

/-- The copy is joined. -/
def joining : Machine :=
  asked (copying.advance 2).world 3 (.startCopy "y" (.ownFile "n" "/x") (some "b"))

/-- Somebody attaches to it. -/
def attaching : Machine := asked (joining.advance 2).world 4 (.listenToCopy 1 "x" "c")

/-- It finishes. -/
def landing : Machine := asked (attaching.advance 2).world 5 (.finishCopy 1 "y")

/-- It is said to finish once more. -/
def relanding : Machine := asked (landing.advance 4).world 6 (.finishCopy 1 "x")

/-- The moments until all calls have returned. -/
def relandingMoments : List Moment :=
  moments 2 relanding ++ (moments 4 landing ++ (moments 2 attaching ++ (moments 2 joining ++
    (moments 2 copying ++ (moments 2 aliasing ++ (moments 2 naming ++ []))))))

theorem course_relanding :
    Course (.lively fun _ => True)
      { World.fresh .fifo [] false 8 with disturbances := [] } relandingMoments
      ⟨(relanding.advance 2).world, []⟩ :=
  ((((((Course.start.call 0 2 trivial (by decide +kernel)).call 1 2 trivial
    (by decide +kernel)).call 2 2 trivial (by decide +kernel)).call 3 2 trivial
    (by decide +kernel)).call 4 2 trivial (by decide +kernel)).call 5 4 trivial
    (by decide +kernel)).call 6 2 trivial (by decide +kernel)

/-- Who started the copy, who joined it and who attached to it are told once that it is there. -/
theorem copyProtocol_relanding :
    CopyProtocol relandingMoments (relanding.advance 2).world ∧
      begunCopies relandingMoments = [⟨1, "x", .ownFile "n" "/x", true⟩] ∧
      endedCopies relandingMoments = [1] ∧
      relandingMoments.reverse.flatMap Moment.outcomes =
        ["a", "b", "c"].map fun l => (l, "x", .completed (.ownFile "n" "/x")) :=
  ⟨course_relanding.copyProtocol, by decide +kernel, by decide +kernel, by decide +kernel⟩

end Machine

end TaskGrid
