import TaskGrid.Proofs.Echoes
import TaskGrid.Proofs.Rollback

/-!
# Tasks that are run as applications

Running a task is a chain of items.  Each of them leads to the next, after what there is to tell,
until the task is submitted or the application is called off; so every application is submitted
once at most, and not if it was called off.  The monitor of its action is its session, and nobody
outside has such a monitor.

What else an item leads to has no part in this, and does not close sessions either, with two
exceptions: the end of a main action, and a call that finishes an application early.

* `Conduct.LeavesSessions`: sessions and their monitors are left to the agent.
* `World.Ensues`: what an item leads to, as far as tasks are run and sessions are closed.
* `Machine.Prepared`: every application is prepared once.
* `Moment.Launches`: the main action of an application is submitted.
* `Machine.Course.launch_unique`: it is the only one, and the application was not called off.
-/

namespace TaskGrid

/-! ## Who may have a session for a monitor -/

/-- Whether a monitor is none of the agent's own. -/
def Monitor.isOutside : Monitor → Bool
  | .session .. => false
  | _ => true

/-- Whether a command leaves sessions, and the monitors that they are, to the agent. -/
def Command.leavesSessions : Command → Bool
  | .pool _ | .finishSession _ | .tellSession .. | .dismissAgent => false
  | .submit _ m | .runTask _ m | .startSession m => m.isOutside
  | _ => true

/-- Sessions and their monitors are left to the agent. -/
structure Conduct.LeavesSessions (rule : Conduct) : Prop where
  /-- Between calls. -/
  asks : ∀ {c}, rule.asks c → c.leavesSessions = true
  /-- In answer to an event. -/
  answers : ∀ {c}, rule.answers c → c.leavesSessions = true

theorem Conduct.LeavesSessions.sparesPool {rule : Conduct} (h : rule.LeavesSessions) :
    rule.SparesPool := by
  have hpool {c : Command} (hc : c.leavesSessions = true) : c.surface ≠ .pool := fun hs => by
    cases c <;> first | exact absurd hc Bool.false_ne_true | cases hs
  exact ⟨fun hc => hpool (h.asks hc), fun hc => hpool (h.answers hc)⟩

theorem Conduct.LeavesSessions.honest {rule : Conduct} (h : rule.LeavesSessions) : rule.Honest := by
  have htell {c : Command} (hc : c.leavesSessions = true) (app : ApplicationId) (e : Event) :
      c ≠ .tellSession app e := by
    rintro rfl
    cases hc
  exact ⟨h.sparesPool, fun hc => htell (h.asks hc), fun hc => htell (h.answers hc)⟩

/-- A monitor from outside passes nothing on. -/
theorem Monitor.relays_of_isOutside {m : Monitor} (h : m.isOutside = true) : m.relays = [] := by
  cases m <;> first | rfl | cases h

/-! ## What items lead to -/

/-- The last step of a preparation. -/
def Preparation.goal (p : Preparation) : Preparation := { p with offers := [], imports := [] }

/-- The last step of the preparation that goes on, if one does. -/
def Resume.goal? : Resume → Option Preparation
  | .answer _ => none
  | .prepare p => some p.goal

namespace Item

/-- The last step of the preparation that an item has a part in. -/
def goal? (j : Item) : Option Preparation := j.resume?.bind Resume.goal?

/-- An item has no part in running tasks and in closing sessions. -/
def IsAloof (j : Item) : Prop :=
  j.isOrdinary = true ∨ ∃ token, j.resume? = some (.answer token)

variable {j : Item}

theorem IsAloof.goal? (h : j.IsAloof) : j.goal? = none := by
  rcases h with h | ⟨token, h⟩
  · cases j <;> first | rfl | cases h
  · rw [Item.goal?, h]
    rfl

theorem IsAloof.ne_endSession (h : j.IsAloof) (app : ApplicationId) : j ≠ .endSession app := by
  rintro rfl
  rcases h with h | ⟨_, h⟩ <;> cases h

theorem IsAloof.ne_closeSession (h : j.IsAloof) (app : ApplicationId) : j ≠ .closeSession app := by
  rintro rfl
  rcases h with h | ⟨_, h⟩ <;> cases h

theorem IsAloof.ne_started (h : j.IsAloof) (token : Nat) (app : ApplicationId) (id : Nat) :
    j ≠ .reply token (.started app id) := by
  rintro rfl
  rcases h with h | ⟨_, h⟩ <;> cases h

theorem goal?_of_leadsOn (h : j.leadsOn = false) : j.goal? = none := by
  cases j <;> first | rfl | cases h

end Item

namespace World

variable {w : World} {i j : Item} {l : List Item} {app : ApplicationId}

/-- What an item leads to, as far as tasks are run and sessions are closed. -/
inductive Ensues (w : World) (i : Item) (l : List Item) : Prop where
  /-- Nothing of the kind. -/
  | aside (item : i.goal? = none) (items : ∀ j ∈ l, j.IsAloof)
  /-- A monitor is told an event. -/
  | tells {m : Monitor} {e : Event} (item : i = .deliver m e) (items : l = (w.deliver m e).2)
  /-- The main action of an application has ended, for the first time. -/
  | fires {app : ApplicationId} (item : i = .closeSession app) (first : app ∉ w.ended)
    (items : l = [.endSession app])
  /-- An application is finished early. -/
  | finishes {token : Nat} {app : ApplicationId} (item : i = .obey token (.finishApplication app))
    (isOpen : w.sessions.isOpen app = true) (items : l = [.endSession app, .reply token .done])
  /-- A task begins to be run. -/
  | begins {token : Nat} {r : TaskRequest} {m : Monitor} {p : Preparation}
    (item : i = .obey token (.runTask r m))
    (goal : p.goal = ⟨token, .issued (w.opened + 1), [], [], r.submission, m⟩)
    (opened : (w.carryOut i).1.opened = w.opened + 1) (items : l = [.prepare p])
  /-- There is another step to make. -/
  | goes {p : Preparation} {l' : List Item} {j : Item} (item : i.goal? = some p)
    (step : j.goal? = some p) (resume : ∃ next, j.resume? = some next) (items : l = l' ++ [j])
    (aloof : ∀ j ∈ l', j.isOrdinary = true)
  /-- The task cannot be run, and the application is called off. -/
  | stops {p : Preparation} {f : Fault} (item : i.goal? = some p)
    (items : l = [.endSession p.app, .reply p.token (.refused f)])
  /-- The task is submitted. -/
  | submits {p : Preparation} (item : i = .prepare p) (last : p.goal = p)
    (items : l = (w.submit p.submission (.session p.app p.monitor)).2.2 ++
      [.reply p.token (.started p.app w.schedule.nextId)])

/-- What goes on with an answer has no part in running tasks. -/
theorem Continues.isAloof {token : Nat} (h : Continues (.answer token) l) : ∀ j ∈ l, j.IsAloof := by
  cases h with
  | answers _ ordinary => exact fun j hj => .inl (List.all_eq_true.mp ordinary j hj)
  | stops item => cases item
  | goes ordinary step =>
    intro j hj
    rcases List.mem_append.mp hj with hj | hj
    · exact .inl (List.all_eq_true.mp ordinary j hj)
    · rw [List.mem_singleton.mp hj]
      exact .inr ⟨token, step⟩

/-- What goes on with a preparation is its next step, or calls the application off. -/
theorem Continues.ensues {p : Preparation} (h : Continues (.prepare p) l)
    (hi : i.goal? = some p.goal) : w.Ensues i l := by
  cases h with
  | answers item _ => cases item
  | stops item =>
    cases item
    exact .stops hi rfl
  | goes ordinary step =>
    exact .goes hi (by rw [Item.goal?, step]; rfl) ⟨_, step⟩ rfl (List.all_eq_true.mp ordinary)

theorem Continues.ensues_of_resume {next : Resume} (h : Continues next l)
    (hi : i.resume? = some next) : w.Ensues i l := by
  cases next with
  | answer token => exact .aside (by rw [Item.goal?, hi]; rfl) h.isAloof
  | prepare p => exact h.ensues (by rw [Item.goal?, hi]; rfl)

theorem ensues_withAgent {token : Nat} {f : Sessions → Effect} (hi : i.goal? = none)
    (h : ∀ s, w.agent = some s → w.Ensues i (f s).2) : w.Ensues i (w.withAgent token f).2 := by
  unfold withAgent
  split
  · exact .aside hi fun j hj => .inl (by rw [List.mem_singleton.mp hj]; rfl)
  · next s hs => exact h s hs

theorem ensues_prepare (w : World) (p : Preparation) :
    w.Ensues (.prepare p) (w.prepare p).2 := by
  have hgoes {q : Preparation} (hgoal : q.goal = p.goal) {l : List Item}
      (h : Continues (.prepare q) l) : w.Ensues (.prepare p) l := h.ensues (hgoal ▸ rfl)
  unfold prepare
  split
  · next o rest _ =>
    dsimp only
    split
    · exact hgoes (q := { p with offers := rest }) rfl (.goes (l := []) rfl rfl)
    · exact hgoes (q := { p with offers := rest }) rfl (continues_offer w _ _ _)
  · next r rest _ _ =>
    exact hgoes (q := { p with imports := rest }) rfl (.goes (l := []) rfl rfl)
  · next hoffers himports =>
    refine .submits rfl (by rw [Preparation.goal, ← hoffers, ← himports]) ?_
    rw [← Schedule.fst_accept w.schedule w.catalog p.submission (.session p.app p.monitor)]
    rfl

/-- An application is finished early if its session is open. -/
theorem carryOut_finishApplication_of_isOpen (token : Nat) (h : w.sessions.isOpen app = true) :
    w.carryOut (.obey token (.finishApplication app)) =
      (w, [.endSession app, .reply token .done]) := by
  show w.withAgent token _ = _
  rw [withAgent, (agent_of_isOpen h).1]
  dsimp only
  rw [Sessions.ensure, if_pos h]

/-- Otherwise the call is refused. -/
theorem carryOut_finishApplication_of_closed (token : Nat) (h : w.sessions.isOpen app = false) :
    ∃ r, r ≠ .done ∧ r.isOrdinary = true ∧
      w.carryOut (.obey token (.finishApplication app)) = (w, [.reply token r]) := by
  cases hs : w.agent with
  | none =>
    refine ⟨.noAgent, (fun he => by cases he), rfl, ?_⟩
    show w.withAgent token _ = _
    rw [withAgent, hs]
  | some s =>
    refine ⟨.refused (Sessions.unknown app), (fun he => by cases he), rfl, ?_⟩
    rw [sessions, hs] at h
    have h : s.isOpen app = false := h
    show w.withAgent token _ = _
    rw [withAgent, hs]
    dsimp only
    rw [Sessions.ensure, h]
    rfl

/-- The last step submits the task. -/
theorem prepare_goal (w : World) (p : Preparation) : (w.prepare p.goal).2 =
    (w.submit p.submission (.session p.app p.monitor)).2.2 ++
      [.reply p.token (.started p.app (w.submit p.submission (.session p.app p.monitor)).1)] := rfl

/-- What an item leads to, as far as tasks are run and sessions are closed. -/
theorem ensues_carryOut (w : World) (i : Item) : w.Ensues i (w.carryOut i).2 := by
  by_cases hi : i.leadsOn = false
  · exact .aside (Item.goal?_of_leadsOn hi) fun j hj => .inl (isOrdinary_of_mem hi hj)
  · cases i with
    | deliver m e => exact .tells rfl rfl
    | closeSession app =>
      dsimp only [carryOut]
      unfold closeSession
      split
      · exact .aside rfl (List.forall_mem_nil _)
      · next hfirst => exact .fires rfl hfirst rfl
    | joinNode app v next => exact (continues_joinNode w app v next).ensues_of_resume rfl
    | takeOver im => exact (continues_takeOver w im).ensues_of_resume rfl
    | takenOver name sources next =>
      exact (continues_takenOver w name sources next).ensues_of_resume rfl
    | prepare p => exact ensues_prepare w p
    | obey token c =>
      cases c with
      | offerNode o app =>
        exact ensues_withAgent rfl fun _ _ =>
          .aside rfl (continues_offer w o app (.answer token)).isAloof
      | importData r =>
        refine ensues_withAgent rfl fun _ _ => .aside rfl fun j hj => .inr ⟨token, ?_⟩
        rw [List.mem_singleton.mp hj]
        rfl
      | runTask r m =>
        refine ensues_withAgent rfl fun s hs => .begins rfl rfl ?_ rfl
        show (w.withAgent token _).1.opened = _
        rw [withAgent, hs]
        rfl
      | finishApplication app =>
        by_cases hopen : w.sessions.isOpen app = true
        · rw [carryOut_finishApplication_of_isOpen token hopen]
          exact .finishes rfl hopen rfl
        · obtain ⟨r, -, hr, he⟩ :=
            carryOut_finishApplication_of_closed token (Bool.eq_false_iff.mpr hopen)
          rw [he]
          exact .aside rfl fun j hj => .inl (by rw [List.mem_singleton.mp hj]; exact hr)
      | _ => exact absurd rfl hi
    | _ => exact absurd rfl hi

/-- What a submission leads to has no part in running tasks. -/
theorem isAloof_submit (w : World) (task : Submission) (m : Monitor) :
    ∀ j ∈ (w.submit task m).2.2, j.IsAloof := by
  have hall : (w.submit task m).2.2.all Item.isOrdinary = true := by simp [submit]
  exact fun j hj => .inl (List.all_eq_true.mp hall j hj)

/-- What a monitor is told has no part in running tasks, but the session may close. -/
theorem isAloof_deliver {m : Monitor} {e : Event} (hj : j ∈ (w.deliver m e).2) :
    j.IsAloof ∨ ∃ app inner, m = .session app inner ∧ e.isTerminal = true ∧
      j = .closeSession app := by
  rcases mem_deliver hj with ⟨p, rfl⟩ | ⟨app, inner, rfl, rfl | ⟨hend, rfl⟩⟩
  · exact .inl (.inl rfl)
  · exact .inl (.inl rfl)
  · exact .inr ⟨app, inner, rfl, hend, rfl⟩

/-- How an item comes to lead to another one, as far as tasks are run and sessions are closed. -/
inductive Brings (w : World) (i : Item) (l : List Item) : Item → Prop where
  /-- It has no part in it. -/
  | aloof {j : Item} (aloof : j.IsAloof) : Brings w i l j
  /-- It is the next step of a preparation. -/
  | step {j : Item} {p : Preparation} (step : j.goal? = some p) : Brings w i l j
  /-- A session is told that the main action has ended. -/
  | closes {app : ApplicationId} {inner : Monitor} {e : Event}
    (item : i = .deliver (.session app inner) e) (ends : e.isTerminal = true) :
    Brings w i l (.closeSession app)
  /-- The main action has ended. -/
  | fires {app : ApplicationId} (item : i = .closeSession app) (first : app ∉ w.ended) :
    Brings w i l (.endSession app)
  /-- The application is finished early. -/
  | finishes {token : Nat} {app : ApplicationId} (item : i = .obey token (.finishApplication app))
    (done : .reply token .done ∈ l) : Brings w i l (.endSession app)
  /-- The application is called off. -/
  | stops {p : Preparation} (item : i.goal? = some p) (items : ∀ j ∈ l, j.goal? = none) :
    Brings w i l (.endSession p.app)
  /-- The task is submitted. -/
  | started {p : Preparation} (item : i = .prepare p) (last : p.goal = p) :
    Brings w i l (.reply p.token (.started p.app w.schedule.nextId))

theorem Ensues.brings (h : w.Ensues i l) (hj : j ∈ l) : w.Brings i l j := by
  cases h with
  | aside _ items => exact .aloof (items j hj)
  | tells item items =>
    subst items
    rcases isAloof_deliver hj with h | ⟨app, inner, rfl, hend, rfl⟩
    · exact .aloof h
    · exact .closes item hend
  | fires item first items =>
    subst items
    rw [List.mem_singleton.mp hj]
    exact .fires item first
  | finishes item _ items =>
    subst items
    rcases List.mem_pair.mp hj with rfl | rfl
    · exact .finishes item (List.mem_cons_of_mem _ List.mem_cons_self)
    · exact .aloof (.inl rfl)
  | begins _ _ _ items =>
    subst items
    rw [List.mem_singleton.mp hj]
    exact .step rfl
  | goes _ step _ items aloof =>
    subst items
    rcases List.mem_append.mp hj with hj | hj
    · exact .aloof (.inl (aloof j hj))
    · rw [List.mem_singleton.mp hj]
      exact .step step
  | stops item items =>
    subst items
    rcases List.mem_pair.mp hj with rfl | rfl
    · exact .stops item (List.forall_mem_cons.mpr ⟨rfl, List.forall_mem_cons.mpr
        ⟨rfl, List.forall_mem_nil _⟩⟩)
    · exact .aloof (.inl rfl)
  | submits item last items =>
    subst items
    rcases List.mem_append.mp hj with hj | hj
    · exact .aloof (isAloof_submit w _ _ j hj)
    · rw [List.mem_singleton.mp hj]
      exact .started item last

/-- How an item comes to lead to another one. -/
theorem brings_of_mem (hj : j ∈ (w.carryOut i).2) : w.Brings i (w.carryOut i).2 j :=
  (w.ensues_carryOut i).brings hj

/-- A main action is over when its session was told that it has ended. -/
theorem of_closeSession_mem (h : .closeSession app ∈ (w.carryOut i).2) :
    ∃ inner e, i = .deliver (.session app inner) e ∧ e.isTerminal = true := by
  cases brings_of_mem h with
  | aloof aloof => exact absurd rfl (aloof.ne_closeSession app)
  | step step => cases step
  | closes item ends => exact ⟨_, _, item, ends⟩

/-- The answer that a task was started is given when it is submitted. -/
theorem of_started_mem {token id : Nat} (h : .reply token (.started app id) ∈ (w.carryOut i).2) :
    ∃ p, i = .prepare p ∧ p.goal = p ∧ p.token = token ∧ p.app = app ∧
      w.schedule.nextId = id := by
  generalize hj : Item.reply token (.started app id) = j at h
  cases brings_of_mem h with
  | aloof aloof => exact absurd hj.symm (aloof.ne_started token app id)
  | step step =>
    subst hj
    cases step
  | started item last =>
    cases hj
    exact ⟨_, item, last, rfl, rfl, rfl⟩
  | _ => cases hj

end World

/-! ## Every application is prepared once -/

/-- The applications that are being prepared. -/
def Item.applications (l : List Item) : List ApplicationId :=
  l.flatMap fun j => (j.goal?.map Preparation.app).toList

namespace Moment

/-- A task begins to be run at a moment. -/
def Undertakes (x : Moment) (p : Preparation) : Prop :=
  ∃ r, x.item = .obey p.token (.runTask r p.monitor) ∧ p.app = .issued (x.world.opened + 1)

/-- A task that is run is submitted at a moment. -/
def Launches (x : Moment) (p : Preparation) : Prop := x.item = .prepare p ∧ p.goal = p

/-- The application whose preparation is over at a moment: its task is submitted, or it is called
off. -/
def settled? (x : Moment) : Option ApplicationId :=
  if (Item.applications (x.world.carryOut x.item).2).isEmpty then x.item.goal?.map Preparation.app
  else none

end Moment

/-- The applications whose preparation is over. -/
def settled (t : List Moment) : List ApplicationId := t.flatMap fun x => x.settled?.toList

section Applications

open Item (applications)

variable {w : World} {i : Item} {l r : List Item} {app : ApplicationId} {t : List Moment}
  {x y : Moment}

theorem settled_cons (x : Moment) (t : List Moment) :
    settled (x :: t) = x.settled?.toList ++ settled t := rfl

theorem applications_cons (j : Item) (l : List Item) :
    applications (j :: l) = (j.goal?.map Preparation.app).toList ++ applications l := rfl

theorem applications_append : applications (l ++ r) = applications l ++ applications r :=
  List.flatMap_append

theorem applications_eq_nil (h : ∀ j ∈ l, j.goal? = none) : applications l = [] :=
  List.flatMap_eq_nil_iff.mpr fun j hj => by rw [h j hj]; rfl

theorem applications_of_isAloof (h : ∀ j ∈ l, j.IsAloof) : applications l = [] :=
  applications_eq_nil fun j hj => (h j hj).goal?

/-- A preparation goes on, or it is over; and one begins when a task is to be run. -/
theorem applications_carryOut (w : World) (i : Item) :
    applications (w.carryOut i).2 ++ (Moment.settled? ⟨w, i⟩).toList =
        (i.goal?.map Preparation.app).toList ∨
      i.goal? = none ∧ Moment.settled? ⟨w, i⟩ = none ∧
        applications (w.carryOut i).2 = [.issued (w.opened + 1)] ∧
        (w.carryOut i).1.opened = w.opened + 1 := by
  have hover (h : applications (w.carryOut i).2 = []) :
      applications (w.carryOut i).2 ++ (Moment.settled? ⟨w, i⟩).toList =
        (i.goal?.map Preparation.app).toList := by
    rw [Moment.settled?, h]
    rfl
  have hon {app : ApplicationId} (h : applications (w.carryOut i).2 = [app]) :
      Moment.settled? ⟨w, i⟩ = none := by
    rw [Moment.settled?, h]
    rfl
  cases w.ensues_carryOut i with
  | aside _ items => exact .inl (hover (applications_of_isAloof items))
  | tells item items =>
    refine .inl (hover (applications_eq_nil fun j hj => ?_))
    rw [items] at hj
    rcases World.isAloof_deliver hj with h | ⟨_, _, -, -, rfl⟩
    · exact h.goal?
    · rfl
  | fires _ _ items | finishes _ _ items | stops _ items =>
    refine .inl (hover ?_)
    rw [items]
    rfl
  | begins item goal opened items =>
    have hone : applications (w.carryOut i).2 = [.issued (w.opened + 1)] := by
      rw [items, applications_cons]
      exact congrArg (fun q : Preparation => [q.app]) goal
    exact .inr ⟨by rw [item]; rfl, hon hone, hone, opened⟩
  | goes item step _ items aloof =>
    have hone : applications (w.carryOut i).2 = (i.goal?.map Preparation.app).toList := by
      rw [items, applications_append, applications_cons, item, step,
        applications_of_isAloof fun j hj => .inl (aloof j hj)]
      rfl
    refine .inl ?_
    rw [item] at hone ⊢
    rw [hon hone, hone]
    rfl
  | submits item last items =>
    refine .inl (hover ?_)
    rw [items, applications_append, applications_of_isAloof (World.isAloof_submit w _ _)]
    rfl

/-- A task that is run goes on as it began. -/
theorem goal?_of_mem {j : Item} (hj : j ∈ (w.carryOut i).2) {p : Preparation}
    (hp : j.goal? = some p) : i.goal? = some p ∨ Moment.Undertakes ⟨w, i⟩ p := by
  have hno {l : List Item} (h : ∀ j ∈ l, j.IsAloof) (hj : j ∈ l) : False := by
    rw [(h j hj).goal?] at hp
    cases hp
  cases w.ensues_carryOut i with
  | aside _ items => exact (hno items hj).elim
  | tells item items =>
    rw [items] at hj
    rcases World.isAloof_deliver hj with h | ⟨_, _, -, -, rfl⟩
    · rw [h.goal?] at hp
      cases hp
    · cases hp
  | fires _ _ items =>
    rw [items] at hj
    rw [List.mem_singleton.mp hj] at hp
    cases hp
  | finishes _ _ items | stops _ items =>
    rw [items] at hj
    rcases List.mem_pair.mp hj with rfl | rfl <;> cases hp
  | begins item goal opened items =>
    rw [items] at hj
    rw [List.mem_singleton.mp hj] at hp
    obtain rfl := (Option.some_inj.mp hp).symm.trans goal
    exact .inr ⟨_, item, rfl⟩
  | goes item step _ items aloof =>
    rw [items] at hj
    rcases List.mem_append.mp hj with hj | hj
    · exact (hno (fun j hj => .inl (aloof j hj)) hj).elim
    · rw [List.mem_singleton.mp hj, step] at hp
      exact .inl (hp ▸ item)
  | submits item last items =>
    rw [items] at hj
    rcases List.mem_append.mp hj with hj | hj
    · exact (hno (World.isAloof_submit w _ _) hj).elim
    · rw [List.mem_singleton.mp hj] at hp
      cases hp

end Applications

/-- What two members of a list contribute, it has twice. -/
theorem eq_of_nodup_flatMap {α β : Type} {f : α → List β} {l : List α} {x y : α} {b : β}
    (h : (l.flatMap f).Nodup) (hx : x ∈ l) (hy : y ∈ l) (hbx : b ∈ f x) (hby : b ∈ f y) :
    x = y := by
  induction l with
  | nil => cases hx
  | cons z l ih =>
    rw [List.flatMap_cons] at h
    obtain ⟨-, hrest, hne⟩ := List.nodup_append.mp h
    rcases List.mem_cons.mp hx with rfl | hxl <;> rcases List.mem_cons.mp hy with rfl | hyl
    · rfl
    · exact absurd rfl (hne b hbx b (List.mem_flatMap.mpr ⟨y, hyl, hby⟩))
    · exact absurd rfl (hne b hby b (List.mem_flatMap.mpr ⟨x, hxl, hbx⟩))
    · exact ih hrest hxl hyl

namespace Machine

open Item (applications)

variable {t : List Moment} {m : Machine} {w : World} {i : Item} {rest : List Item} {x y : Moment}
  {app : ApplicationId} {p : Preparation}

/-- Every application is prepared once, and for a task that is to be run. -/
structure Prepared (t : List Moment) (m : Machine) : Prop where
  /-- An application is being prepared, or its preparation is over, once. -/
  once : (applications m.agenda ++ settled t).Nodup
  /-- These applications were opened. -/
  issued : ∀ app ∈ applications m.agenda ++ settled t, m.world.Issued app
  /-- What is being prepared is a task that is to be run. -/
  origin : ∀ j ∈ m.agenda, ∀ p, j.goal? = some p → ∃ x ∈ t, x.Undertakes p

theorem Prepared.step (h : Prepared t ⟨w, i :: rest⟩) :
    Prepared (⟨w, i⟩ :: t) (Machine.step ⟨w, i :: rest⟩) := by
  have hissued {app : ApplicationId} : w.Issued app → (w.carryOut i).1.Issued app :=
    fun ⟨n, hn, he⟩ => ⟨n, Nat.le_trans hn (w.opened_le_carryOut i), he⟩
  obtain ⟨honce, hold, horigin⟩ := h
  rw [applications_cons, List.append_assoc] at honce hold
  rw [step_cons]
  -- what is new comes in front of what there was
  have hperm : (applications ((w.carryOut i).2 ++ rest) ++ settled (⟨w, i⟩ :: t)).Perm
      ((applications (w.carryOut i).2 ++ (Moment.settled? ⟨w, i⟩).toList) ++
        (applications rest ++ settled t)) := by
    rw [applications_append, settled_cons, List.append_assoc, List.append_assoc]
    exact (List.perm_append_comm_assoc _ _ _).append_left _
  have horigin' : ∀ j ∈ (w.carryOut i).2 ++ rest, ∀ p, j.goal? = some p →
      ∃ x ∈ ⟨w, i⟩ :: t, x.Undertakes p := by
    intro j hj p hp
    have hbefore {j : Item} (hj : j ∈ i :: rest) (hp : j.goal? = some p) :
        ∃ x ∈ ⟨w, i⟩ :: t, x.Undertakes p := by
      obtain ⟨x, hx, hu⟩ := horigin j hj p hp
      exact ⟨x, List.mem_cons_of_mem _ hx, hu⟩
    rcases List.mem_append.mp hj with hj | hj
    · rcases goal?_of_mem hj hp with hi | hu
      · exact hbefore List.mem_cons_self hi
      · exact ⟨_, List.mem_cons_self, hu⟩
    · exact hbefore (List.mem_cons_of_mem i hj) hp
  rcases applications_carryOut w i with hsame | ⟨hnone, hover, hnew, hopened⟩
  · rw [hsame] at hperm
    exact ⟨hperm.nodup_iff.mpr honce, fun app happ => hissued (hold app (hperm.mem_iff.mp happ)),
      horigin'⟩
  · rw [hnone, Option.map_none, Option.toList_none, List.nil_append] at honce hold
    rw [hnew, hover, Option.toList_none, List.append_nil, List.singleton_append] at hperm
    refine ⟨hperm.nodup_iff.mpr (List.nodup_cons.mpr ⟨fun hmem => ?_, honce⟩), fun app happ => ?_,
      horigin'⟩
    · obtain ⟨n, hn, he⟩ := hold _ hmem
      cases he
      exact Nat.not_succ_le_self _ hn
    · rcases List.mem_cons.mp (hperm.mem_iff.mp happ) with rfl | happ
      · exact ⟨_, Nat.le_of_eq hopened.symm, rfl⟩
      · exact hissued (hold app happ)

/-- A preparation is over once. -/
theorem Prepared.eq_of_settled (h : Prepared t m) (hx : x ∈ t) (hy : y ∈ t)
    (hax : x.settled? = some app) (hay : y.settled? = some app) : x = y :=
  eq_of_nodup_flatMap (List.nodup_append.mp h.once).2.1 hx hy
    (by rw [hax]; exact List.mem_cons_self) (by rw [hay]; exact List.mem_cons_self)

theorem Prepared.issued_of_settled (h : Prepared t m) (hx : x ∈ t) (hax : x.settled? = some app) :
    m.world.Issued app :=
  h.issued app (List.mem_append_right _ (List.mem_flatMap.mpr
    ⟨x, hx, by rw [hax]; exact List.mem_cons_self⟩))

theorem Prepared.issued_of_goal? (h : Prepared t m) {j : Item} (hj : j ∈ m.agenda)
    (hp : j.goal? = some p) : m.world.Issued p.app :=
  h.issued p.app (List.mem_append_left _ (List.mem_flatMap.mpr
    ⟨j, hj, by rw [hp]; exact List.mem_cons_self⟩))

/-- In every run, every application is prepared once. -/
theorem Course.prepared {rule : Conduct} {policy : Policy} {localNodes : List String}
    {withholds : Bool} {limit : Nat}
    (h : Course rule (World.fresh policy localNodes withholds limit) t m) : Prepared t m := by
  induction h with
  | start => exact ⟨List.nodup_nil, List.forall_mem_nil _, List.forall_mem_nil _⟩
  | ask token _ _ ih =>
    refine ⟨ih.once, ih.issued, fun j hj p hp => ?_⟩
    rw [List.mem_singleton.mp hj] at hp
    cases hp
  | item _ ih => exact ih.step
  | @answer t w q rest given _ _ ih =>
    have hnone : ∀ j ∈ given.map fun g => Item.obey g.1 g.2, j.goal? = none := by
      intro j hj
      obtain ⟨g, -, rfl⟩ := List.mem_map.mp hj
      rfl
    have hsame : applications ((given.map fun g => Item.obey g.1 g.2) ++ rest) =
        applications (.prompt q :: rest) := by
      rw [applications_append, applications_eq_nil hnone]
      rfl
    refine ⟨hsame ▸ ih.once, hsame ▸ ih.issued, fun j hj p hp => ?_⟩
    rcases List.mem_append.mp hj with hj | hj
    · rw [hnone j hj] at hp
      cases hp
    · exact ih.origin j (List.mem_cons_of_mem _ hj) p hp

end Machine

/-! ## Submissions of tasks that are run -/

namespace Moment

variable {x : Moment} {p : Preparation} {id : Nat} {k : Monitor}

/-- A task that is run is accepted with a session for its monitor. -/
theorem Launches.accepts (h : x.Launches p) :
    x.Accepts x.world.schedule.nextId (.session p.app p.monitor) := by
  obtain ⟨hitem, hlast⟩ := h
  refine ⟨rfl, ?_⟩
  unfold deed
  rw [hitem, ← hlast]
  rfl

/-- When it is submitted, its preparation is over. -/
theorem Launches.settled? (h : x.Launches p) : x.settled? = some p.app := by
  obtain ⟨w, i⟩ := x
  obtain ⟨rfl, hlast⟩ := h
  have hgoal : (Item.prepare p).goal? = some p := congrArg some hlast
  rcases applications_carryOut w (.prepare p) with hsame | ⟨hnone, -⟩
  · have hitems : Item.applications (w.carryOut (.prepare p)).2 = [] := by
      show Item.applications (w.prepare p).2 = []
      rw [← hlast, World.prepare_goal, applications_append,
        applications_of_isAloof (World.isAloof_submit w _ _)]
      rfl
    rw [Moment.settled?, hitems]
    exact congrArg (Option.map Preparation.app) hgoal
  · rw [hgoal] at hnone
    cases hnone

/-- Only what is prepared is over at some time. -/
theorem exists_goal_of_settled {app : ApplicationId} (h : x.settled? = some app) :
    ∃ p, x.item.goal? = some p ∧ p.app = app := by
  unfold Moment.settled? at h
  split at h
  · exact Option.map_eq_some_iff.mp h
  · cases h

theorem accepted?_offered (x : Moment) : x.offered.accepted? = none := by
  unfold offered
  cases x.offer? <;> rfl

theorem accepted?_withKey (x : Moment) (name : String) (app : Option ApplicationId)
    {f : WorkerKey → Deed} (h : ∀ key, (f key).accepted? = none) :
    (x.withKey name app f).accepted? = none := by
  unfold withKey
  cases x.world.agent.bind fun s => (s.keyFor name app).toOption with
  | none => rfl
  | some key => exact h key

/-- An action is accepted from whoever submits it, or as a task that is run. -/
theorem of_accepts (h : x.Accepts id k) : (∃ token task, x.item = .obey token (.submit task k)) ∨
    x.world.schedule.nextId = id ∧ ∃ p, x.Launches p ∧ k = .session p.app p.monitor := by
  obtain ⟨hid, hk⟩ := h
  obtain ⟨w, i⟩ := x
  unfold deed at hk
  cases i with
  | obey token c =>
    cases c with
    | submit task m => exact .inl ⟨token, task, congrArg (fun m => Item.obey token (.submit task m))
        (Option.some_inj.mp hk)⟩
    | offerNode => rw [accepted?_offered] at hk; cases hk
    | reduceNode | removeNode | loseNode =>
      rw [accepted?_withKey _ _ _ fun _ => rfl] at hk
      cases hk
    | tellSession app e =>
      dsimp only at hk
      cases hs : w.agent.bind fun s => (s.monitorOf app).toOption with
      | none => rw [hs] at hk; cases hk
      | some m => rw [hs] at hk; cases hk
    | _ => cases hk
  | takeOver => rw [accepted?_offered] at hk; cases hk
  | prepare p =>
    dsimp only at hk
    split at hk
    · next hempty =>
      cases hk
      rw [Bool.and_eq_true, List.isEmpty_iff, List.isEmpty_iff] at hempty
      exact .inr ⟨hid, p, ⟨rfl, by rw [Preparation.goal, ← hempty.1, ← hempty.2]⟩, rfl⟩
    · rw [accepted?_offered] at hk
      cases hk
  | _ => cases hk

end Moment

namespace Machine

variable {rule : Conduct} {policy : Policy} {localNodes : List String} {withholds : Bool}
  {limit : Nat} {t : List Moment} {m : Machine} {x y : Moment} {app : ApplicationId}
  {p q : Preparation} {id token : Nat} {k inner : Monitor}

/-- The agent's sessions are left to it. -/
theorem Course.leavesSessions (hrule : rule.LeavesSessions)
    (h : Course rule (World.fresh policy localNodes withholds limit) t m) {c : Command}
    (hj : .obey token c ∈ m.agenda) : c.leavesSessions = true :=
  h.allows (P := fun c => c.leavesSessions = true)
    ⟨agrees_empty limit rfl, rfl, fun _ _ hj => by cases hj⟩ hrule.sparesPool hrule.asks
    hrule.answers hj

theorem Course.leavesSessions_of_mem (hrule : rule.LeavesSessions)
    (h : Course rule (World.fresh policy localNodes withholds limit) t m) (hx : x ∈ t)
    {c : Command} (hitem : x.item = .obey token c) : c.leavesSessions = true := by
  obtain ⟨t₁, t₀, rfl⟩ := List.append_of_mem hx
  obtain ⟨rest, hbefore⟩ := h.before
  exact hbefore.leavesSessions hrule (List.mem_cons.mpr (.inl hitem.symm))

/-- A task that is submitted was to be run. -/
theorem Course.exists_undertakes
    (h : Course rule (World.fresh policy localNodes withholds limit) t m) (hx : x ∈ t)
    (hp : x.Launches p) : ∃ y ∈ t, y.Undertakes p := by
  obtain ⟨t₁, t₀, rfl⟩ := List.append_of_mem hx
  obtain ⟨rest, hbefore⟩ := h.before
  obtain ⟨y, hy, hu⟩ := hbefore.prepared.origin x.item List.mem_cons_self p
    (by rw [hp.1]; exact congrArg some hp.2)
  exact ⟨y, List.mem_append_right t₁ (List.mem_cons_of_mem x hy), hu⟩

/-- Who is told about a task that is run is none of the agent's own monitors. -/
theorem Course.isOutside_of_launches (hrule : rule.LeavesSessions)
    (h : Course rule (World.fresh policy localNodes withholds limit) t m) (hx : x ∈ t)
    (hp : x.Launches p) : p.monitor.isOutside = true := by
  obtain ⟨y, hy, r, hitem, -⟩ := h.exists_undertakes hx hp
  exact h.leavesSessions_of_mem hrule hy hitem

/-- Only of its main action a session hears. -/
theorem Course.launches_of_hearer (hrule : rule.LeavesSessions)
    (h : Course rule (World.fresh policy localNodes withholds limit) t m) (hx : x ∈ t)
    (hk : x.Accepts id k) (hmem : .session app inner ∈ k.hearers) :
    x.world.schedule.nextId = id ∧ ∃ p, x.Launches p ∧ p.app = app ∧ p.monitor = inner := by
  have hself {m : Monitor} (hm : m.isOutside = true) : .session app inner ∉ m.hearers := by
    rw [Monitor.hearers, Monitor.relays_of_isOutside hm, List.mem_singleton]
    rintro rfl
    cases hm
  rcases Moment.of_accepts hk with ⟨token, task, hitem⟩ | ⟨hid, p, hp, rfl⟩
  · exact absurd hmem (hself (h.leavesSessions_of_mem hrule hx hitem))
  · refine ⟨hid, p, hp, ?_⟩
    rcases List.mem_cons.mp hmem with he | hmem
    · cases he
      exact ⟨rfl, rfl⟩
    · exact absurd hmem (hself (h.isOutside_of_launches hrule hx hp))

/-- What a session is told, it is told of a task that was submitted for its application. -/
theorem Course.launches_of_heard (hrule : rule.LeavesSessions)
    (h : Course rule (World.fresh policy localNodes withholds limit) t m) {e : Event}
    (he : e ∈ m.world.heard (.session app inner) id) : ∃ x ∈ t, x.world.schedule.nextId = id ∧
      ∃ p, x.Launches p ∧ p.app = app ∧ p.monitor = inner := by
  have hmem : e ∈ m.account (.session app inner) id := List.mem_append_left _ he
  cases h.echoed hrule.honest id with
  | unheard _ _ silent =>
    rw [silent] at hmem
    cases hmem
  | known _ accepted _ _ _ told _ _ =>
    obtain ⟨x, hx, hk⟩ := accepted
    rw [told] at hmem
    split at hmem
    · next hhears => exact ⟨x, hx, h.launches_of_hearer hrule hx hk hhears⟩
    · cases hmem

/-- An application's task is submitted once. -/
theorem Course.launch_unique
    (h : Course rule (World.fresh policy localNodes withholds limit) t m) (hx : x ∈ t) (hy : y ∈ t)
    (hp : x.Launches p) (hq : y.Launches q) (happ : p.app = q.app) : x = y ∧ p = q := by
  obtain rfl := h.prepared.eq_of_settled hx hy hp.settled? (happ ▸ hq.settled?)
  refine ⟨rfl, ?_⟩
  cases hp.1.symm.trans hq.1
  rfl

/-- When it is answered that a task was started, it has been submitted. -/
theorem Course.launches_of_started
    (h : Course rule (World.fresh policy localNodes withholds limit) t m)
    (hr : .replied token (.started app id) ∈ m.world.log ∨
      .reply token (.started app id) ∈ m.agenda) : ∃ x ∈ t, x.world.schedule.nextId = id ∧
      ∃ p, x.Launches p ∧ p.token = token ∧ p.app = app := by
  induction h with
  | start => rcases hr with hr | hr <;> cases hr
  | ask _ _ _ ih => exact ih (hr.imp_right fun hj => by simp at hj)
  | answer _ _ _ ih => exact ih (hr.imp_right fun hj => by simpa using hj)
  | @item t w i rest hc ih =>
    have hbefore (hr : .replied token (.started app id) ∈ w.log ∨
        .reply token (.started app id) ∈ i :: rest) :
        ∃ x ∈ (⟨w, i⟩ : Moment) :: t, x.world.schedule.nextId = id ∧
          ∃ p, x.Launches p ∧ p.token = token ∧ p.app = app := by
      obtain ⟨x, hx, hlaunch⟩ := ih hr
      exact ⟨x, List.mem_cons_of_mem _ hx, hlaunch⟩
    rcases hr with hr | hr
    · obtain ⟨l, hlog, hwrites⟩ := w.log_carryOut i
      have hr : .replied token (.started app id) ∈ (w.carryOut i).1.log := hr
      rw [hlog] at hr
      rcases List.mem_append.mp hr with hr | hr
      · exact hbefore (.inr ((hwrites _ hr).of_replied ▸ List.mem_cons_self))
      · exact hbefore (.inl hr)
    · rcases List.mem_append.mp hr with hr | hr
      · obtain ⟨p, rfl, hlast, htoken, happ, hid⟩ := World.of_started_mem hr
        exact ⟨_, List.mem_cons_self, hid, p, ⟨rfl, hlast⟩, htoken, happ⟩
      · exact hbefore (.inr (List.mem_cons_of_mem i hr))

end Machine

end TaskGrid
