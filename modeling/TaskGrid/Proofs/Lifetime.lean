import TaskGrid.Proofs.Launches

/-!
# The lifetime of a session

A task that runs as an application has a session, which is open as long as its main action is live.
The session is closed from within what is told about the action: whoever tells it the end of the
action leaves it to be closed, and only the first time.  That may be before the call that runs the
task has returned, and clients may have commands carried out in between.  It is also closed if
somebody finishes the application early; then the action goes on, and its end closes nothing.

## The argument

Whatever closes a session was ordered: by the end of the main action, by somebody who finishes the
application, or because it is called off (`Moment.Orders`); and what was ordered is on the agenda or
done (`Machine.Course.orders_iff`).  An application that was called off has no main action.  The
end of the action is acted on exactly if the session was told it (`Machine.Heeds`), and only of its
own action a session is told anything.

* `HappensOnce`, `Machine.Course.once`: what happens once in a course.
* `Machine.Heeds`: a session that was told an end has acted on it, or is about to.
* `Machine.Course.orders_iff`: sessions are closed when that was ordered.
* `Machine.Lifetime`, `Machine.Course.lifetime`: how long a session is open, and what its monitor
  hears.
-/

namespace TaskGrid

open Sessions (isOpen_iff finish?_eq_some)

/-! ## What happens once -/

/-- Something happens at one moment and at no other, and from then on something is the case. -/
def HappensOnce (P : Moment → Prop) (Q : World → Prop) (t : List Moment) : Prop :=
  ∃ t₂ x t₁, t = t₂ ++ x :: t₁ ∧ P x ∧ (∀ y ∈ t₂ ++ t₁, ¬ P y) ∧ ∀ y ∈ t₂, Q y.world

theorem HappensOnce.imp {P : Moment → Prop} {Q Q' : World → Prop} {t : List Moment}
    (himp : ∀ w, Q w → Q' w) (h : HappensOnce P Q t) : HappensOnce P Q' t := by
  obtain ⟨t₂, x, t₁, ht, hx, hno, hq⟩ := h
  exact ⟨t₂, x, t₁, ht, hx, hno, fun y hy => himp _ (hq y hy)⟩

/-- What brings about something that stays so happens once, or not yet. -/
theorem Machine.Course.once {rule : Conduct} {w₀ : World} {t : List Moment} {m : Machine}
    {P : Moment → Prop} {Q : World → Prop} (hstart : ¬ Q w₀)
    (hstep : ∀ {t w i rest}, Course rule w₀ t ⟨w, i :: rest⟩ →
      (P ⟨w, i⟩ ↔ ¬ Q w ∧ Q (w.carryOut i).1) ∧ (Q w → Q (w.carryOut i).1))
    (h : Course rule w₀ t m) :
    (Q m.world → HappensOnce P Q t) ∧ (¬ Q m.world → ∀ x ∈ t, ¬ P x) := by
  induction h with
  | start => exact ⟨fun hq => absurd hq hstart, fun _ => List.forall_mem_nil _⟩
  | ask _ _ _ ih => exact ih
  | answer _ _ _ ih => exact ih
  | @item t w i rest hc ih =>
    obtain ⟨hiff, hkeeps⟩ := hstep hc
    obtain ⟨hbefore, hnever⟩ := ih
    by_cases hq : Q w
    · refine ⟨fun _ => ?_, fun hno => absurd (hkeeps hq) hno⟩
      obtain ⟨t₂, x, t₁, ht, hx, hno, hlater⟩ := hbefore hq
      exact ⟨_ :: t₂, x, t₁, by rw [ht]; rfl, hx,
        List.forall_mem_cons.mpr ⟨fun hp => (hiff.mp hp).1 hq, hno⟩,
        List.forall_mem_cons.mpr ⟨hq, hlater⟩⟩
    · exact ⟨fun hafter =>
          ⟨[], _, t, rfl, hiff.mpr ⟨hq, hafter⟩, hnever hq, List.forall_mem_nil _⟩,
        fun hno => List.forall_mem_cons.mpr ⟨fun hp => hno (hiff.mp hp).2, hnever hq⟩⟩

/-! ## Closing sessions -/

namespace World

variable {w : World} {i : Item} {app : ApplicationId}

/-- What an item does to the sessions, if they are left to the agent. -/
theorem sessionMove_of_leavesSessions
    (hi : ∀ token c, i = .obey token c → c.leavesSessions = true) :
    w.SessionMove i (w.carryOut i) := by
  by_cases hnodes : ∀ token c, i = .obey token c → c.leavesNodes = true
  · exact sessionMove_carryOut hnodes
  · push Not at hnodes
    obtain ⟨token, c, rfl, hc⟩ := hnodes
    have hleaves := hi token c rfl
    cases c with
    | addWorker => exact .same ⟨rfl, rfl⟩
    | pool | finishSession | dismissAgent => cases hleaves
    | _ => exact absurd rfl hc

/-- A session that is ended is closed. -/
theorem isOpen_endSession (w : World) (app : ApplicationId) :
    (w.carryOut (.endSession app)).1.sessions.isOpen app = false := by
  rw [Bool.eq_false_iff]
  intro hopen
  have hopen : (w.endSession app).1.sessions.isOpen app = true := hopen
  unfold endSession at hopen
  split at hopen
  · next hnone =>
    obtain ⟨hagent, x, hx⟩ := agent_of_isOpen hopen
    rw [hagent, Option.bind_some, Sessions.finish?, hx] at hnone
    cases hnone
  · next nodes s hs =>
    obtain ⟨s', -, hfinish⟩ := Option.bind_eq_some_iff.mp hs
    obtain ⟨x, -, -, hlive⟩ := finish?_eq_some hfinish
    obtain ⟨y, hy⟩ := isOpen_iff.mp hopen
    have hy : s.live.get? app = some y := hy
    rw [hlive, SortedMap.get?_erase_self] at hy
    cases hy

/-- A session was opened, and is closed now. -/
def IsOver (w : World) (app : ApplicationId) : Prop :=
  w.Issued app ∧ w.sessions.isOpen app = false

/-- An open session is closed by the item that ends it, and never opened again. -/
theorem SessionMove.isOver (h : w.SessionMove i (w.carryOut i)) (hissued : w.SessionsIssued)
    (app : ApplicationId) :
    (Moment.Closes ⟨w, i⟩ app ↔ ¬ w.IsOver app ∧ (w.carryOut i).1.IsOver app) ∧
      (w.IsOver app → (w.carryOut i).1.IsOver app) := by
  refine ⟨⟨fun ⟨hitem, hopen⟩ => ?_, fun ⟨hno, hover⟩ => ?_⟩, fun ⟨ha, hclosed⟩ =>
    ⟨h.issued ha, Housed.isOpen_eq_false h ha hclosed⟩⟩
  · have hopen : w.sessions.isOpen app = true := hopen
    obtain rfl : i = .endSession app := hitem
    refine ⟨fun hover => ?_, h.issued (hissued app hopen), w.isOpen_endSession app⟩
    rw [hover.2] at hopen
    cases hopen
  · by_cases hopen : w.sessions.isOpen app = true
    · rcases h.isOpen hopen with hafter | rfl
      · rw [hover.2] at hafter
        cases hafter
      · exact ⟨rfl, hopen⟩
    · -- what is issued only now is open
      have hnew : ¬ w.Issued app := fun ha => hno ⟨ha, Bool.eq_false_iff.mpr hopen⟩
      obtain ⟨⟨n, hn, rfl⟩, hclosed⟩ := hover
      cases h with
      | same same => exact absurd ⟨n, same.opened ▸ hn, rfl⟩ hnew
      | records _ opened => exact absurd ⟨n, opened ▸ hn, rfl⟩ hnew
      | closes _ _ opened _ => exact absurd ⟨n, opened ▸ hn, rfl⟩ hnew
      | opens sessions opened =>
        rw [opened] at hn
        rcases Nat.le_succ_iff.mp hn with hn | rfl
        · exact absurd ⟨n, hn, rfl⟩ hnew
        · rw [sessions, Bool.eq_false_iff] at hclosed
          exact absurd (isOpen_iff.mpr ⟨_, SortedMap.get?_insert_self _ _ _⟩) hclosed

end World

/-! ## Why sessions are closed -/

namespace Moment

variable {x : Moment} {app : ApplicationId}

/-- The end of the main action of an application is acted on, for the first time. -/
def Fires (x : Moment) (app : ApplicationId) : Prop :=
  x.item = .closeSession app ∧ app ∉ x.world.ended

/-- An application is finished early: the call succeeds. -/
def Finishes (x : Moment) (app : ApplicationId) : Prop :=
  ∃ token, x.item = .obey token (.finishApplication app) ∧
    .reply token .done ∈ (x.world.carryOut x.item).2

/-- A session is left to be closed. -/
def Orders (x : Moment) (app : ApplicationId) : Prop :=
  .endSession app ∈ (x.world.carryOut x.item).2

/-- An application that was being prepared is called off. -/
def CallsOff (x : Moment) (app : ApplicationId) : Prop :=
  x.Orders app ∧ x.settled? = some app

/-- The call succeeds if the session is open. -/
theorem finishes_iff : x.Finishes app ↔
    (∃ token, x.item = .obey token (.finishApplication app)) ∧
      x.world.sessions.isOpen app = true := by
  obtain ⟨w, i⟩ := x
  refine ⟨fun ⟨token, hitem, hdone⟩ => ⟨⟨token, hitem⟩, ?_⟩,
    fun ⟨⟨token, hitem⟩, hopen⟩ => ⟨token, hitem, ?_⟩⟩
  · obtain rfl : i = _ := hitem
    by_contra hclosed
    obtain ⟨r, hr, -, he⟩ :=
      World.carryOut_finishApplication_of_closed token (Bool.eq_false_iff.mpr hclosed)
    dsimp only at hdone
    rw [he] at hdone
    cases List.mem_singleton.mp hdone
    exact hr rfl
  · obtain rfl : i = _ := hitem
    dsimp only
    rw [World.carryOut_finishApplication_of_isOpen token hopen]
    exact List.mem_cons_of_mem _ List.mem_cons_self

/-- Who finishes an application early has its session closed. -/
theorem Finishes.orders (h : x.Finishes app) : x.Orders app := by
  obtain ⟨⟨token, hitem⟩, hopen⟩ := finishes_iff.mp h
  rw [Orders, hitem, World.carryOut_finishApplication_of_isOpen token hopen]
  exact List.mem_cons_self

theorem Fires.orders (h : x.Fires app) : x.Orders app := by
  obtain ⟨w, i⟩ := x
  obtain ⟨hitem, hfirst⟩ := h
  obtain rfl : i = _ := hitem
  show .endSession app ∈ (w.closeSession app).2
  rw [World.closeSession, if_neg hfirst]
  exact List.mem_cons_self

/-- Why a session is left to be closed. -/
theorem orders_cases (h : x.Orders app) : x.Fires app ∨ x.Finishes app ∨ x.CallsOff app := by
  cases World.brings_of_mem h with
  | aloof aloof => exact absurd rfl (aloof.ne_endSession app)
  | step step => cases step
  | fires item first => exact .inl ⟨item, first⟩
  | finishes item done => exact .inr (.inl ⟨_, item, done⟩)
  | stops item items =>
    refine .inr (.inr ⟨h, ?_⟩)
    rw [settled?, applications_eq_nil items, item]
    rfl

end Moment

namespace World

variable {w : World} {i : Item} {a : Monitor} {id : Nat}

/-- What was heard stays heard. -/
theorem heard_prefix_carryOut (w : World) (i : Item) (a : Monitor) (id : Nat) :
    w.heard a id <+: (w.carryOut i).1.heard a id :=
  ⟨_, (w.heard_carryOut i a id).symm⟩

theorem ToldEnd.carryOut (h : w.ToldEnd a id) (i : Item) : (w.carryOut i).1.ToldEnd a id := by
  obtain ⟨e, he, hend⟩ := h
  exact ⟨e, (w.heard_prefix_carryOut i a id).subset he, hend⟩

/-- Whoever is told an end is told it now, or was told one. -/
theorem ToldEnd.back (h : (w.carryOut i).1.ToldEnd a id) :
    w.ToldEnd a id ∨ ∃ e, i.delivery? = some (a, e) ∧ e.isTerminal = true := by
  obtain ⟨e, he, hend⟩ := h
  rw [heard_carryOut] at he
  rcases List.mem_append.mp he with he | he
  · exact .inl ⟨e, he, hend⟩
  · obtain ⟨x, hx, rfl⟩ := List.mem_map.mp he
    obtain ⟨hmem, hc⟩ := List.mem_filter.mp hx
    obtain ⟨rfl, -⟩ := of_decide_eq_true hc
    exact .inr ⟨x.2, Option.mem_toList.mp hmem, hend⟩

theorem toldEnd_deliver (w : World) (m : Monitor) {e : Event} (he : e.isTerminal = true) :
    (w.carryOut (.deliver m e)).1.ToldEnd m e.action := by
  refine ⟨e, ?_, he⟩
  rw [heard_carryOut]
  exact List.mem_append_right _ (by simp [Item.delivery?])

/-- A session that is told an end is about to act on it. -/
theorem closeSession_mem_deliver (w : World) (app : ApplicationId) (inner : Monitor) {e : Event}
    (he : e.isTerminal = true) :
    .closeSession app ∈ (w.carryOut (.deliver (.session app inner) e)).2 := by
  show _ ∈ (w.deliver (.session app inner) e).2
  unfold deliver
  dsimp only
  rw [if_pos he]
  exact List.mem_cons_of_mem _ List.mem_cons_self

end World

/-- An action that has ended has one end. -/
theorem Life.ends_once {t : List Moment} {s : Schedule} {id : Nat} {l : List Event}
    (h : Life t s id l) (hgone : s.actions.get? id = none) :
    ∃ e, l.filter Event.isTerminal = [e] := by
  cases h with
  | going live => cases hgone.symm.trans live
  | @ended _ _ ending l _ _ _ _ _ opening =>
    have hopening : l.filter Event.isTerminal = [] :=
      List.filter_eq_nil_iff.mpr fun e he => by simp [(opening.mem he).2.1]
    have hvalues : (ending.values.map (.valueProduced id)).filter Event.isTerminal = [] :=
      List.filter_eq_nil_iff.mpr fun e he => by
        obtain ⟨v, -, rfl⟩ := List.mem_map.mp he
        exact Bool.false_ne_true
    refine ⟨ending.last id, ?_⟩
    rw [Ending.events_eq, List.filter_append, List.filter_append, hopening, hvalues,
      List.filter_cons_of_pos (ending.isTerminal_last id)]
    rfl

/-- When a task is submitted, no session is left to be closed. -/
theorem Moment.Launches.not_orders {x : Moment} {p : Preparation} (h : x.Launches p)
    {app : ApplicationId} : ¬ x.Orders app := by
  obtain ⟨w, i⟩ := x
  obtain ⟨rfl, hlast⟩ := h
  intro ho
  have ho : .endSession app ∈ (w.prepare p).2 := ho
  rw [← hlast, World.prepare_goal] at ho
  rcases List.mem_append.mp ho with ho | ho
  · exact (World.isAloof_submit w _ _ _ ho).ne_endSession app rfl
  · cases List.mem_singleton.mp ho

/-! ## Every run -/

namespace Machine

variable {rule : Conduct} {policy : Policy} {localNodes : List String} {withholds : Bool}
  {limit : Nat} {t : List Moment} {m : Machine} {w : World} {i : Item} {rest : List Item}
  {x y : Moment} {app : ApplicationId} {p : Preparation} {id token : Nat} {inner : Monitor}

/-- The ends that sessions were told are those that they acted on, or are about to act on. -/
structure Heeds (m : Machine) : Prop where
  /-- What is acted on was told. -/
  told : ∀ {app}, app ∈ m.world.ended ∨ .closeSession app ∈ m.agenda →
    ∃ inner id, m.world.ToldEnd (.session app inner) id
  /-- What was told is acted on. -/
  heeded : ∀ {app inner id}, m.world.ToldEnd (.session app inner) id →
    app ∈ m.world.ended ∨ .closeSession app ∈ m.agenda

theorem Heeds.step (h : Heeds ⟨w, i :: rest⟩) (hroutine : ∀ n, i = .note n → n.isRoutine = true) :
    Heeds (Machine.step ⟨w, i :: rest⟩) := by
  rw [step_cons]
  refine ⟨fun {app} hacted => ?_, fun {app inner id} htold => ?_⟩
  · have hold (hacted : app ∈ w.ended ∨ .closeSession app ∈ i :: rest) :
        ∃ inner id, (w.carryOut i).1.ToldEnd (.session app inner) id := by
      obtain ⟨inner, id, htold⟩ := h.told hacted
      exact ⟨inner, id, htold.carryOut i⟩
    rcases hacted with hended | hj
    · refine hold ((World.mem_ended_carryOut.mp hended).imp_right fun hi => ?_)
      rw [hi]
      exact List.mem_cons_self
    · rcases List.mem_append.mp hj with hj | hj
      · obtain ⟨inner, e, rfl, hend⟩ := World.of_closeSession_mem hj
        exact ⟨inner, e.action, w.toldEnd_deliver _ hend⟩
      · exact hold (.inr (List.mem_cons_of_mem i hj))
  · rcases htold.back with htold | ⟨e, hd, hend⟩
    · rcases h.heeded htold with hended | hj
      · exact .inl (World.mem_ended_carryOut.mpr (.inl hended))
      · rcases List.mem_cons.mp hj with rfl | hj
        · exact .inl (World.mem_ended_carryOut.mpr (.inr rfl))
        · exact .inr (List.mem_append_right _ hj)
    · obtain rfl := Item.eq_deliver hroutine hd
      exact .inr (List.mem_append_left _ (w.closeSession_mem_deliver app inner hend))

theorem Course.heeds (h : Course rule (World.fresh policy localNodes withholds limit) t m) :
    Heeds m := by
  induction h with
  | start =>
    refine ⟨fun hacted => ?_, fun ⟨_, he, _⟩ => by cases he⟩
    rcases hacted with hended | hj
    · cases hended
    · cases hj
  | ask _ _ _ ih =>
    exact ⟨fun hacted => ih.told (hacted.imp_right fun hj => by simp at hj),
      fun htold => (ih.heeded htold).imp_right fun hj => by cases hj⟩
  | item hc ih => exact ih.step fun n hn => hc.isRoutine (hn ▸ List.mem_cons_self)
  | answer _ _ _ ih =>
    exact ⟨fun hacted => ih.told (hacted.imp_right fun hj => by simpa using hj),
      fun htold => (ih.heeded htold).imp_right fun hj => by simpa using hj⟩

/-- The end of a main action is acted on once. -/
theorem Course.fires_once
    (h : Course rule (World.fresh policy localNodes withholds limit) t m) (app : ApplicationId) :
    (app ∈ m.world.ended → HappensOnce (·.Fires app) (app ∈ ·.ended) t) ∧
      (app ∉ m.world.ended → ∀ x ∈ t, ¬ x.Fires app) := by
  refine h.once (Q := fun w => app ∈ w.ended) List.not_mem_nil fun {t w i rest} _ => ⟨?_, fun hq =>
    World.mem_ended_carryOut.mpr (.inl hq)⟩
  rw [World.mem_ended_carryOut]
  exact ⟨fun ⟨hitem, hfirst⟩ => ⟨hfirst, .inr hitem⟩,
    fun ⟨hno, hor⟩ => ⟨hor.resolve_left hno, hno⟩⟩

theorem Course.sessionMove (hrule : rule.LeavesSessions)
    (h : Course rule (World.fresh policy localNodes withholds limit) t ⟨w, i :: rest⟩) :
    w.SessionMove i (w.carryOut i) :=
  World.sessionMove_of_leavesSessions fun _ _ hi =>
    h.leavesSessions hrule (List.mem_cons.mpr (.inl hi.symm))

theorem Course.sessionsIssued (hrule : rule.LeavesSessions)
    (h : Course rule (World.fresh policy localNodes withholds limit) t m) :
    m.world.SessionsIssued := by
  induction h with
  | start => exact fun _ ho => by cases ho
  | ask _ _ _ ih => exact ih
  | answer _ _ _ ih => exact ih
  | item hc ih => exact (hc.sessionMove hrule).sessionsIssued ih

/-- A session is closed once.  (Applications are numbered from one.) -/
theorem Course.closes_once (hrule : rule.LeavesSessions)
    (h : Course rule (World.fresh policy localNodes withholds limit) t m) (happ : app ≠ .issued 0) :
    (m.world.IsOver app → HappensOnce (·.Closes app) (·.IsOver app) t) ∧
      (¬ m.world.IsOver app → ∀ x ∈ t, ¬ x.Closes app) := by
  refine h.once (Q := fun w => w.IsOver app) (fun ⟨⟨n, hn, he⟩, _⟩ => happ ?_) fun hc =>
    (hc.sessionMove hrule).isOver (hc.sessionsIssued hrule) app
  rw [he, Nat.le_zero.mp hn]

/-- Whatever session is left to be closed was opened. -/
theorem Course.issued_of_orders (hrule : rule.LeavesSessions)
    (h : Course rule (World.fresh policy localNodes withholds limit) t ⟨w, i :: rest⟩)
    (ho : Moment.Orders ⟨w, i⟩ app) : w.Issued app := by
  rcases Moment.orders_cases ho with ⟨hitem, -⟩ | hfinish | ⟨-, hsettled⟩
  · obtain ⟨inner, id, e, he, -⟩ := h.heeds.told (.inr (List.mem_cons.mpr (.inl hitem.symm)))
    obtain ⟨x, hx, -, p, hp, rfl, -⟩ := h.launches_of_heard hrule he
    exact h.prepared.issued_of_settled hx hp.settled?
  · exact h.sessionsIssued hrule app (Moment.finishes_iff.mp hfinish).2
  · obtain ⟨p, hp, rfl⟩ := Moment.exists_goal_of_settled hsettled
    exact h.prepared.issued_of_goal? List.mem_cons_self hp

theorem Course.issued_of_ordered (hrule : rule.LeavesSessions)
    (h : Course rule (World.fresh policy localNodes withholds limit) t m) (hx : x ∈ t)
    (ho : x.Orders app) : m.world.Issued app := by
  induction h with
  | start => cases hx
  | ask _ _ _ ih => exact ih hx
  | answer _ _ _ ih => exact ih hx
  | item hc ih =>
    refine (hc.sessionMove hrule).issued ?_
    rcases List.mem_cons.mp hx with rfl | hx
    · exact hc.issued_of_orders hrule ho
    · exact ih hx

/-- A session is closed, or about to be closed, exactly if that was ordered. -/
theorem Course.orders_iff (hrule : rule.LeavesSessions)
    (h : Course rule (World.fresh policy localNodes withholds limit) t m) (happ : app ≠ .issued 0) :
    (∃ x ∈ t, x.Orders app) ↔ .endSession app ∈ m.agenda ∨ m.world.IsOver app := by
  induction h with
  | start =>
    refine iff_of_false (fun ⟨_, hx, _⟩ => by cases hx) fun hor => ?_
    rcases hor with hj | ⟨⟨n, hn, he⟩, -⟩
    · cases hj
    · exact happ (by rw [he, Nat.le_zero.mp hn])
  | ask _ _ _ ih => exact ih.trans (or_congr_left (by simp))
  | answer _ _ _ ih => exact ih.trans (or_congr_left (by simp))
  | @item t w i rest hc ih =>
    obtain ⟨hcloses, hstays⟩ := (hc.sessionMove hrule).isOver
      (hc.sessionsIssued hrule) app
    have hbefore (hor : .endSession app ∈ i :: rest ∨ w.IsOver app) :
        ∃ x ∈ (⟨w, i⟩ : Moment) :: t, x.Orders app := by
      obtain ⟨x, hx, ho⟩ := ih.mpr hor
      exact ⟨x, List.mem_cons_of_mem _ hx, ho⟩
    constructor
    · rintro ⟨x, hx, ho⟩
      have hissued : (w.carryOut i).1.Issued app := hc.item.issued_of_ordered hrule hx ho
      rcases List.mem_cons.mp hx with rfl | hx
      · exact .inl (List.mem_append_left _ ho)
      · rcases ih.mp ⟨x, hx, ho⟩ with hj | hover
        · rcases List.mem_cons.mp hj with rfl | hj
          · exact .inr ⟨hissued, w.isOpen_endSession app⟩
          · exact .inl (List.mem_append_right _ hj)
        · exact .inr (hstays hover)
    · rintro (hj | hover)
      · rcases List.mem_append.mp hj with hj | hj
        · exact ⟨_, List.mem_cons_self, hj⟩
        · exact hbefore (.inl (List.mem_cons_of_mem i hj))
      · by_cases hold : w.IsOver app
        · exact hbefore (.inr hold)
        · -- it is closed now, by the item that was left for it
          exact hbefore (.inl (List.mem_cons.mpr (.inl (hcloses.mpr ⟨hold, hover⟩).1.symm)))

/-- What was heard at some moment is the beginning of what is heard. -/
theorem Course.heard_prefix (h : Course rule (World.fresh policy localNodes withholds limit) t m)
    (hx : x ∈ t) (a : Monitor) (id : Nat) : x.world.heard a id <+: m.world.heard a id := by
  induction h with
  | start => cases hx
  | ask _ _ _ ih => exact ih hx
  | answer _ _ _ ih => exact ih hx
  | @item t w i rest hc ih =>
    have hnow : w.heard a id <+: (w.carryOut i).1.heard a id := w.heard_prefix_carryOut i a id
    rcases List.mem_cons.mp hx with rfl | hx
    · exact hnow
    · exact (ih hx).trans hnow

/-! ### An application whose task was submitted -/

/-- Of the actions only the main one is told to the session. -/
theorem Course.toldEnd_of_ended (hrule : rule.LeavesSessions)
    (h : Course rule (World.fresh policy localNodes withholds limit) t m) (hx : x ∈ t)
    (hp : x.Launches p) (hacted : p.app ∈ m.world.ended ∨ .closeSession p.app ∈ m.agenda) :
    m.world.ToldEnd (.session p.app p.monitor) x.world.schedule.nextId := by
  obtain ⟨inner, id, e, he, hend⟩ := h.heeds.told hacted
  obtain ⟨y, hy, hid, q, hq, happ, rfl⟩ := h.launches_of_heard hrule he
  obtain ⟨rfl, rfl⟩ := h.launch_unique hx hy hp hq happ.symm
  rw [hid]
  exact ⟨e, he, hend⟩

/-- Between calls the session was told the end of the main action exactly if that has ended. -/
theorem Course.toldEnd_iff (hrule : rule.LeavesSessions)
    (h : Course rule (World.fresh policy localNodes withholds limit) t ⟨w, []⟩) (hx : x ∈ t)
    (hp : x.Launches p) : w.ToldEnd (.session p.app p.monitor) x.world.schedule.nextId ↔
      w.schedule.actions.get? x.world.schedule.nextId = none := by
  refine ⟨fun htold => ?_, fun hgone => ?_⟩
  · cases hlive : w.schedule.actions.get? x.world.schedule.nextId with
    | none => rfl
    | some e => exact absurd htold ((h.traced hrule.honest _).not_toldEnd hlive _)
  · obtain ⟨l, heard, life, hperm, hheard⟩ := h.heard_alike hrule.honest hx hp.accepts
    obtain ⟨e, he⟩ := life.ends_once hgone
    obtain ⟨hmem, hend⟩ := List.mem_filter.mp (he ▸ List.mem_singleton_self e)
    refine ⟨e, ?_, hend⟩
    rw [hheard, if_pos (Monitor.mem_hearers_self _)]
    exact hperm.mem_iff.mpr hmem

/-- Between calls its end was acted on exactly if the main action has ended. -/
theorem Course.ended_iff (hrule : rule.LeavesSessions)
    (h : Course rule (World.fresh policy localNodes withholds limit) t ⟨w, []⟩) (hx : x ∈ t)
    (hp : x.Launches p) :
    p.app ∈ w.ended ↔ w.schedule.actions.get? x.world.schedule.nextId = none :=
  ⟨fun hended => (h.toldEnd_iff hrule hx hp).mp (h.toldEnd_of_ended hrule hx hp (.inl hended)),
    fun hgone => (h.heeds.heeded ((h.toldEnd_iff hrule hx hp).mpr hgone)).resolve_right nofun⟩

/-- Applications that were submitted are numbered from one. -/
theorem Course.ne_issued_zero
    (h : Course rule (World.fresh policy localNodes withholds limit) t m) (hx : x ∈ t)
    (hp : x.Launches p) : p.app ≠ .issued 0 := by
  obtain ⟨y, -, -, -, happ⟩ := h.exists_undertakes hx hp
  rw [happ]
  nofun

/-- Between calls its session is closed exactly if the main action has ended, or if the application
was finished early. -/
theorem Course.isOver_iff (hrule : rule.LeavesSessions)
    (h : Course rule (World.fresh policy localNodes withholds limit) t ⟨w, []⟩) (hx : x ∈ t)
    (hp : x.Launches p) : w.IsOver p.app ↔
      w.schedule.actions.get? x.world.schedule.nextId = none ∨ ∃ y ∈ t, y.Finishes p.app := by
  have hended := h.ended_iff hrule hx hp
  obtain ⟨hfires, hsilent⟩ := h.fires_once p.app
  have horders := h.orders_iff hrule (h.ne_issued_zero hx hp)
  constructor
  · intro hover
    obtain ⟨y, hy, ho⟩ := horders.mpr (.inr hover)
    rcases Moment.orders_cases ho with hfire | hfinish | hoff
    · refine .inl (hended.mp ?_)
      by_contra hno
      exact hsilent hno y hy hfire
    · exact .inr ⟨y, hy, hfinish⟩
    · -- it was submitted, so it was not called off
      obtain rfl := h.prepared.eq_of_settled hx hy hp.settled? hoff.2
      exact absurd hoff.1 hp.not_orders
  · rintro (hgone | ⟨y, hy, hfinish⟩)
    · obtain ⟨t₂, y, t₁, rfl, hfire, -⟩ := hfires (hended.mpr hgone)
      exact (horders.mp ⟨y, List.mem_append_right t₂ List.mem_cons_self, hfire.orders⟩).resolve_left
        nofun
    · exact (horders.mp ⟨y, hy, hfinish.orders⟩).resolve_left nofun

/-- When the end of the main action is acted on, the session was told one end. -/
theorem Course.toldEnd_of_fires (hrule : rule.LeavesSessions)
    (h : Course rule (World.fresh policy localNodes withholds limit) t ⟨w, []⟩) (hx : x ∈ t)
    (hp : x.Launches p) (hy : y ∈ t) (hfire : y.Fires p.app) :
    ∃ e, (y.world.heard (.session p.app p.monitor) x.world.schedule.nextId).filter
      Event.isTerminal = [e] := by
  have hgone : w.schedule.actions.get? x.world.schedule.nextId = none := by
    refine (h.ended_iff hrule hx hp).mp ?_
    by_contra hno
    exact (h.fires_once p.app).2 hno y hy hfire
  -- in the end it was told one, and now it has been told one at least
  obtain ⟨l, heard, life, hperm, hheard⟩ := h.heard_alike hrule.honest hx hp.accepts
  obtain ⟨e, he⟩ := life.ends_once hgone
  have hall : (w.heard (.session p.app p.monitor) x.world.schedule.nextId).filter
      Event.isTerminal = [e] := by
    rw [hheard, if_pos (Monitor.mem_hearers_self _)]
    exact List.perm_singleton.mp (he ▸ hperm.filter _)
  obtain ⟨t₂, t₁, rfl⟩ := List.append_of_mem hy
  obtain ⟨rest, hbefore⟩ := h.before
  obtain ⟨inner, id, htold⟩ := hbefore.heeds.told (.inr (List.mem_cons.mpr (.inl hfire.1.symm)))
  obtain ⟨e', he', hend⟩ := htold
  obtain ⟨z, hz, hid, q, hq, happ, rfl⟩ := hbefore.launches_of_heard hrule he'
  obtain ⟨rfl, rfl⟩ := h.launch_unique hx (List.mem_append_right t₂ (List.mem_cons_of_mem y hz)) hp
    hq happ.symm
  subst hid
  refine ⟨e, ?_⟩
  have hsub := (h.heard_prefix hy (.session p.app p.monitor)
    x.world.schedule.nextId).sublist.filter Event.isTerminal
  dsimp only at hsub
  rw [hall] at hsub
  rcases List.sublist_singleton.mp hsub with hnone | hone
  · have hmem := List.mem_filter.mpr ⟨he', hend⟩
    rw [hnone] at hmem
    cases hmem
  · exact hone

/-! ### How long a session is open -/

/-- The life of the session of an application, whose task was run with a monitor and is the action
`id`, as it is between calls. -/
structure Lifetime (t : List Moment) (w : World) (app : ApplicationId) (id : Nat)
    (inner : Monitor) : Prop where
  /-- It is open as long as the main action is live, unless the application was finished early. -/
  isOpen_iff : w.sessions.isOpen app = true ↔
    (w.schedule.actions.get? id).isSome = true ∧ ∀ x ∈ t, ¬ x.Finishes app
  /-- While it is open, it was never closed. -/
  unclosed : w.sessions.isOpen app = true → ∀ x ∈ t, ¬ x.Closes app
  /-- Otherwise it was closed once, and has not been open since. -/
  closed : w.sessions.isOpen app = false →
    HappensOnce (·.Closes app) (fun v => v.sessions.isOpen app = false) t
  /-- No end is acted on while the main action is live. -/
  silent : (w.schedule.actions.get? id).isSome = true → ∀ x ∈ t, ¬ x.Fires app
  /-- When it has ended, its end was acted on once. -/
  fired : w.schedule.actions.get? id = none → HappensOnce (·.Fires app) (app ∈ ·.ended) t
  /-- That was at the first end that the session was told. -/
  first : ∀ x ∈ t, x.Fires app →
    ∃ e, (x.world.heard (.session app inner) id).filter Event.isTerminal = [e]
  /-- The monitor heard what the session was told, in the same order. -/
  heard : w.heard inner id = w.heard (.session app inner) id
  /-- That is everything that there is to tell about the action, each event once. -/
  life : ∃ l, Life t w.schedule id l ∧ (w.heard inner id).Perm l

/-- In every run that leaves sessions to the agent, whatever clients answer: between calls the
session of a task that was started is open as long as the main action is live, unless somebody
finished the application early.  It is closed once and not opened again, the first end that it is
told is the only one that is acted on, and its monitor hears every event once, in the order in which
the session was told them. -/
theorem Course.lifetime (hrule : rule.LeavesSessions)
    (h : Course rule (World.fresh policy localNodes withholds limit) t ⟨w, []⟩)
    (hr : .replied token (.started app id) ∈ w.log) :
    ∃ x ∈ t, ∃ r inner, x.item = .obey token (.runTask r inner) ∧
      app = .issued (x.world.opened + 1) ∧ Lifetime t w app id inner := by
  obtain ⟨x, hx, rfl, p, hp, rfl, rfl⟩ := h.launches_of_started (.inl hr)
  obtain ⟨y, hy, r, hitem, happ⟩ := h.exists_undertakes hx hp
  refine ⟨y, hy, r, p.monitor, hitem, happ, ?_⟩
  have hissued : w.Issued p.app := h.prepared.issued_of_settled hx hp.settled?
  have hover : w.IsOver p.app ↔ w.sessions.isOpen p.app = false := and_iff_right hissued
  obtain ⟨hcloses, hunclosed⟩ := h.closes_once hrule (h.ne_issued_zero hx hp)
  obtain ⟨hfires, hsilent⟩ := h.fires_once p.app
  have hended := h.ended_iff hrule hx hp
  obtain ⟨l, heard, life, hperm, hheard⟩ := h.heard_alike hrule.honest hx hp.accepts
  have hself := (hheard _).trans (if_pos (Monitor.mem_hearers_self (.session p.app p.monitor)))
  have hinner := (hheard p.monitor).trans
    (if_pos (List.mem_cons_of_mem _ (Monitor.mem_hearers_self p.monitor)))
  exact
    { isOpen_iff := by
        rw [← Bool.not_eq_false, ← hover, h.isOver_iff hrule hx hp, not_or, ← ne_eq,
          ← Option.isSome_iff_ne_none]
        push Not
        rfl
      unclosed := fun hopen => hunclosed fun ho => Bool.false_ne_true (ho.2.symm.trans hopen)
      closed := fun hclosed => (hcloses (hover.mpr hclosed)).imp fun _ ho => ho.2
      silent := fun hlive => hsilent fun he => by rw [hended.mp he] at hlive; cases hlive
      fired := fun hgone => hfires (hended.mpr hgone)
      first := fun z hz hfire => h.toldEnd_of_fires hrule hx hp hz hfire
      heard := hinner.trans hself.symm
      life := ⟨l, life, hinner ▸ hperm⟩ }

/-! ### A client that changes its mind -/

/-- A task is to run on a node of its own. -/
def selfReliant : TaskRequest where
  submission := .single (.cpus 1) "h"
  resources := [{ name := "n", description := .cpus 1 }]

/-- The task is run, and a client is told about it. -/
def embarking : Machine :=
  asked (.fresh .fifo [] false 8) 0 (.runTask selfReliant (.client 0 "a"))

/-- The client is told that the task was accepted, and cancels it at once. -/
def recanting : Machine :=
  ⟨(embarking.advance 9).world, .obey 1 (.cancel 1) :: (embarking.advance 9).agenda.tail⟩

/-- The moments until the call returns. -/
def recantingMoments : List Moment := moments 21 recanting ++ (moments 9 embarking ++ [])

theorem leavesSessions_lively :
    (Conduct.lively fun c => c.leavesSessions = true).LeavesSessions :=
  ⟨fun hc => hc, fun hc => hc⟩

theorem course_recanting :
    Course (.lively fun c => c.leavesSessions = true) (.fresh .fifo [] false 8) recantingMoments
      ⟨(recanting.advance 21).world, []⟩ := by
  have htold : Course (.lively fun c => c.leavesSessions = true) (.fresh .fifo [] false 8)
      (moments 9 embarking ++ []) (embarking.advance 9) :=
    (Course.start.ask 0 (show _ = _ from rfl)).advance 9
  have hdone := (htold.respond (by decide +kernel) [(1, .cancel 1)] fun g hg => by
    rw [List.mem_singleton.mp hg]
    exact (show _ = _ from rfl)).advance 21
  have hend : (recanting.advance 21).agenda = [] := List.isEmpty_iff.mp (by decide +kernel)
  rw [show (⟨(recanting.advance 21).world, []⟩ : Machine) = recanting.advance 21 from
    congrArg (Machine.mk (recanting.advance 21).world) hend.symm]
  exact hdone

/-- The session is closed before the call that runs the task has returned.  Its monitor then hears
that the task is ready, as the session does. -/
theorem lifetime_recanting :
    Course (.lively fun c => c.leavesSessions = true) (.fresh .fifo [] false 8) recantingMoments
        ⟨(recanting.advance 21).world, []⟩ ∧
      .replied 0 (.started (.issued 1) 1) ∈ (recanting.advance 21).world.log ∧
      Lifetime recantingMoments (recanting.advance 21).world (.issued 1) 1 (.client 0 "a") ∧
      (recanting.advance 21).world.sessions.isOpen (.issued 1) = false ∧
      (recanting.advance 21).world.heard (.client 0 "a") 1 =
        [.created 1, .cancelled 1, .ready 1] := by
  have hstarted : .replied 0 (.started (.issued 1) 1) ∈ (recanting.advance 21).world.log := by
    decide +kernel
  obtain ⟨x, hx, r, inner, hitem, happ, life⟩ :=
    Course.lifetime leavesSessions_lively course_recanting hstarted
  -- no application was opened before, and that is so at the first moment only
  have hnone : x.world.opened = 0 := (Nat.succ.inj (ApplicationId.issued.inj happ)).symm
  have hlater : ∀ y ∈ moments 21 recanting ++ moments 8 embarking.step, y.world.opened ≠ 0 := by
    decide +kernel
  have hx : x ∈ moments 21 recanting ++ (moments 8 embarking.step ++
      [⟨embarking.world, .obey 0 (.runTask selfReliant (.client 0 "a"))⟩] ++ []) := hx
  rw [List.append_nil, ← List.append_assoc] at hx
  rcases List.mem_append.mp hx with hx | hx
  · exact absurd hnone (hlater x hx)
  rw [List.mem_singleton.mp hx] at hitem
  cases hitem
  exact ⟨course_recanting, hstarted, life, by decide +kernel, by decide +kernel⟩

end Machine

end TaskGrid
