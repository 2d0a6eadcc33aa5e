import TaskGrid.Proofs.Agreement
import TaskGrid.Proofs.Picks

/-!
# Who is bound to the nodes of an application

A node is registered for an application, and the task of the application is its main action.  A
run is isolated if no other action is ever bound to such a node.  A pass does not look at whom a
node was registered for: it picks by rank among everything that fits.  So a run is isolated only as
far as its picks happen to be, and this is the exact condition (`Machine.Course.isolated_iff`).

* `Moment.main?`, `Permits`: the main action of an application, and whom a worker is meant for.
* `Isolated`: no moment of a course has an action bound to a worker that is not meant for it.
* `World.Picks`: what a pass picks.
-/

namespace TaskGrid

/-- Whether a pass runs at a moment. -/
def Moment.runsPass (m : Moment) : Bool :=
  match m.item with
  | .obey _ .pass => true
  | .pass _ => true
  | _ => false

/-- The application whose main action is submitted at a moment, with the identifier of the
action. -/
def Moment.main? (m : Moment) : Option (ApplicationId × Nat) :=
  match m.item with
  | .prepare p =>
    if p.offers.isEmpty && p.imports.isEmpty then some (p.app, m.world.schedule.nextId) else none
  | _ => none

/-- A worker is meant for an action: it is permanent, or the action was the main action of the
application of the worker. -/
def Permits (t : List Moment) (key : WorkerKey) (id : Nat) : Prop :=
  ∀ app, key.scope = some app → ∃ x ∈ t, x.main? = some (app, id)

/-- At a moment every action is bound to a worker that is meant for it, and no monitor is told
otherwise by a pass. -/
structure Moment.Isolates (t : List Moment) (x : Moment) : Prop where
  /-- Reservations after the moment are for actions that the worker is meant for. -/
  reserved : ∀ key id, (x.world.carryOut x.item).1.pool.Holds key id → Permits t key id
  /-- So are assignments that a pass tells. -/
  told : x.runsPass = true → ∀ m id key n,
    .deliver m (.assigned id key n) ∈ (x.world.carryOut x.item).2 → Permits t key id

/-- Throughout a course actions are bound to workers that are meant for them. -/
def Isolated (t : List Moment) : Prop := ∀ x ∈ t, x.Isolates t

/-- What a pass picks in a world. -/
def World.Picks (w : World) (picks : List Candidate) : Prop :=
  Greedy w.policy w.catalog w.schedule.readyActions (Pass.accepting w.pool) picks

/-! ## Main actions -/

/-- The application that a task is run for is told the identifier of its main action. -/
theorem World.started_of_main? {w : World} {p : Preparation} {app : ApplicationId} {id : Nat}
    (h : Moment.main? ⟨w, .prepare p⟩ = some (app, id)) :
    .reply p.token (.started app id) ∈ (w.carryOut (.prepare p)).2 := by
  unfold Moment.main? at h
  obtain ⟨token, q, offers, imports, submission, monitor⟩ := p
  cases offers with
  | cons _ _ => simp at h
  | nil =>
    cases imports with
    | cons _ _ => simp at h
    | nil =>
      simp only [List.isEmpty_nil, Bool.and_self, if_true, Option.some.injEq, Prod.mk.injEq] at h
      obtain ⟨rfl, rfl⟩ := h
      show _ ∈ (w.submit _ _).2.2 ++ [.reply token (.started q (w.submit _ _).1)]
      rw [show (w.submit submission (.session q monitor)).1 = w.schedule.nextId from
        Schedule.fst_accept _ _ _ _]
      simp

/-! ## Reservations come from passes -/

namespace Pool

variable {p q : Pool} {key k : WorkerKey} {id : Nat}

theorem Retains.holds (h : p.Retains q) (hq : q.Holds k id) : p.Holds k id := by
  obtain ⟨u, need, hu, hn⟩ := hq
  rcases h.back hu with ⟨v, hv, -, hres, -⟩ | ⟨-, -, hnone⟩
  · exact ⟨v, need, hv, hres ▸ hn⟩
  · rw [hnone] at hn
    cases hn

theorem holds_of_erase (h : q.workers = p.workers.erase key) (hq : q.Holds k id) :
    p.Holds k id := by
  obtain ⟨u, need, hu, hn⟩ := hq
  rw [worker?_of_erase h] at hu
  split at hu
  · cases hu
  · exact ⟨u, need, hu, hn⟩

end Pool

/-- Only passes reserve anything. -/
theorem World.Turn.holds {w : World} {i : Item} {s : Schedule} {p : Pool} {d : List Disturbance}
    {items a : List Item} (ht : w.Turn i s p d items) (ha : Agrees w.schedule w.pool a)
    (hi : Moment.runsPass ⟨w, i⟩ = false) {key : WorkerKey} {id : Nat} (h : p.Holds key id) :
    w.pool.Holds key id := by
  cases ht with
  | pass _ hpass =>
    rcases hpass with ⟨_, rfl⟩ | ⟨_, rfl⟩ <;> cases hi
  | conclude events last live _ _ =>
    obtain ⟨u, need, hu, hn⟩ := h
    obtain ⟨v, hv, -, -, hres⟩ := (ha.dismisses_conclude live events last).back hu
    exact ⟨v, need, hv, (hres hn).1⟩
  | offer adaptor _ _ _ => exact (Pool.retains_add _ _ _ adaptor).holds h
  | reduce key c _ => exact (Pool.retains_reduce _ key c).holds h
  | drain asked _ =>
    obtain ⟨v, hv, -, -, hp⟩ := Pool.requestRemoval?_eq_draining_iff.mp asked
    have hkept : w.pool.Retains p :=
      Pool.retains_of_insert hv (congrArg Pool.workers hp) (by rw [hp]) rfl rfl fun _ => rfl
    exact hkept.holds h
  | leave asked _ =>
    obtain ⟨v, -, -, rfl⟩ := Pool.requestRemoval?_eq_left_iff.mp asked
    exact Pool.holds_of_erase (Pool.workers_depart _ _ _ _ _) h
  | lose lost _ _ =>
    obtain ⟨v, -, rfl⟩ := Pool.lose?_eq_some_iff.mp lost
    exact Pool.holds_of_erase (Pool.workers_depart _ _ _ _ _) h
  | retire _ left _ =>
    obtain ⟨v, -, -, rfl⟩ := Pool.retire?_eq_some_iff.mp left
    exact Pool.holds_of_erase (Pool.workers_depart _ _ _ _ _) h
  | idle _ => exact h
  | wake _ _ _ => exact h
  | submit _ _ _ _ => exact h
  | run _ _ => exact h
  | fail _ _ => exact h

/-! ## Passes -/

namespace World

variable {w : World} {i : Item} {agenda : List Item}

/-- What a pass tells and reserves are the picks. -/
theorem passed_picks (ha : Agrees w.schedule w.pool agenda) (hcalm : w.disturbances = []) :
    ∃ picks, w.Picks picks ∧
      (Pass.start w.schedule w.pool w.catalog w.disturbances w.scored).Made w.passed picks := by
  have hsteady := ha.steady w.catalog w.scored
  rw [← hcalm] at hsteady
  exact Pass.run_picks w.policy hsteady

/-- Assignments that a pass tells are those of its outbox. -/
theorem told_runPass {token : Option Nat} {m : Monitor} {id : Nat} {key : WorkerKey} {n : Nat}
    (h : .deliver m (.assigned id key n) ∈ (w.runPass token).2) :
    (m, .assigned id key n) ∈ w.passed.outbox.events := by
  unfold runPass at h
  rcases List.mem_append.mp h with h | h
  · rcases List.mem_append.mp h with h | h
    · obtain ⟨x, -, hx⟩ := List.mem_map.mp h
      cases x <;> cases hx
    · unfold Item.ofOutbox at h
      rcases List.mem_append.mp h with h | h
      · obtain ⟨⟨m', e⟩, he, hx⟩ := List.mem_map.mp h
        cases hx
        exact he
      · rcases List.mem_cons.mp h with h | h
        · cases h
        · obtain ⟨d, -, hx⟩ := List.mem_map.mp h
          cases hx
  · obtain ⟨_, -, hx⟩ := List.mem_map.mp h
    cases hx

/-- An item that runs a pass does nothing else. -/
theorem carryOut_of_runsPass (h : Moment.runsPass ⟨w, i⟩ = true) :
    ∃ token, w.carryOut i = w.runPass token := by
  unfold Moment.runsPass at h
  split at h
  · next heq => exact ⟨_, by rw [show i = _ from heq]; rfl⟩
  · next heq => exact ⟨_, by rw [show i = _ from heq]; rfl⟩
  · cases h

end World

namespace Machine

variable {rule : Conduct} {policy : Policy} {localNodes : List String} {withholds : Bool}
  {limit : Nat} {t : List Moment} {m : Machine}

/-- At every moment of a course table and pool agree. -/
theorem Course.agrees_of_mem (hrule : rule.SparesPool)
    (h : Course rule (World.fresh policy localNodes withholds limit) t m) :
    ∀ x ∈ t, ∃ rest, InAgreement ⟨x.world, x.item :: rest⟩ := by
  induction h with
  | start => exact fun x hx => by cases hx
  | ask _ _ _ ih => exact ih
  | answer _ _ _ ih => exact ih
  | @item t w i rest hc ih =>
    intro x hx
    rcases List.mem_cons.mp hx with rfl | hx
    · exact ⟨rest, hc.inAgreement hrule⟩
    · exact ih x hx

/-- Where all picks are meant for their workers, so is everything that is reserved. -/
theorem Course.permits (hrule : rule.SparesPool)
    (h : Course rule (World.fresh policy localNodes withholds limit) t m) {l : List Moment}
    (hpicks : ∀ x ∈ t, x.runsPass = true → ∃ picks, x.world.Picks picks ∧
      ∀ y ∈ picks, Permits l y.view.key y.action.id) :
    (∀ key id, m.world.pool.Holds key id → Permits l key id) ∧
      ∀ x ∈ t, ∀ key id, (x.world.carryOut x.item).1.pool.Holds key id → Permits l key id := by
  induction h with
  | start =>
    refine ⟨fun key id hh => ?_, fun x hx => by cases hx⟩
    obtain ⟨v, _, hv, -⟩ := hh
    cases hv
  | ask _ _ _ ih => exact ih hpicks
  | answer _ _ _ ih => exact ih hpicks
  | @item t w i rest hc ih =>
    obtain ⟨hnow, hbefore⟩ := ih fun x hx => hpicks x (List.mem_cons_of_mem _ hx)
    have hag := hc.inAgreement hrule
    have hafter (key : WorkerKey) (id : Nat) (hh : (w.carryOut i).1.pool.Holds key id) :
        Permits l key id := by
      cases hi : Moment.runsPass ⟨w, i⟩ with
      | false =>
        have hturn := hag.turns
        exact hnow key id (hturn.holds hag.agrees hi hh)
      | true =>
        obtain ⟨token, he⟩ := World.carryOut_of_runsPass hi
        obtain ⟨picks, hp, hmade⟩ := World.passed_picks hag.agrees hag.calm
        obtain ⟨picks', hp', hall⟩ := hpicks _ List.mem_cons_self hi
        obtain rfl := Greedy.unique hp hp'
        rw [he] at hh
        rcases (hmade.holds key id).mp hh with hold | ⟨y, hy, rfl, rfl⟩
        · exact hnow key id hold
        · exact hall y hy
    refine ⟨hafter, ?_⟩
    intro x hx
    rcases List.mem_cons.mp hx with rfl | hx
    · exact hafter
    · exact hbefore x hx

/-- A run is isolated exactly if everything that its passes pick, by rank alone, happens to be
meant for the worker that it is picked for. -/
theorem Course.isolated_iff (hrule : rule.SparesPool)
    (h : Course rule (World.fresh policy localNodes withholds limit) t m) :
    Isolated t ↔ ∀ x ∈ t, x.runsPass = true → ∃ picks, x.world.Picks picks ∧
      ∀ y ∈ picks, Permits t y.view.key y.action.id := by
  constructor
  · intro hiso x hx hruns
    obtain ⟨rest, hag⟩ := h.agrees_of_mem hrule x hx
    obtain ⟨picks, hp, hmade⟩ := World.passed_picks hag.agrees hag.calm
    obtain ⟨token, he⟩ := World.carryOut_of_runsPass hruns
    refine ⟨picks, hp, fun y hy => (hiso x hx).reserved _ _ ?_⟩
    rw [he]
    exact (hmade.holds _ _).mpr (.inr ⟨y, hy, rfl, rfl⟩)
  · intro hpicks x hx
    refine ⟨(h.permits hrule hpicks).2 x hx, ?_⟩
    intro hruns m id key n ht
    obtain ⟨rest, hag⟩ := h.agrees_of_mem hrule x hx
    obtain ⟨picks, hp, hmade⟩ := World.passed_picks hag.agrees hag.calm
    obtain ⟨picks', hp', hall⟩ := hpicks x hx hruns
    obtain rfl := Greedy.unique hp hp'
    obtain ⟨token, he⟩ := World.carryOut_of_runsPass hruns
    rw [he] at ht
    rcases hmade.told (World.told_runPass ht) with hnone | ⟨y, hy, rfl, rfl⟩
    · cases hnone
    · exact hall y hy

/-! ### An application that lends its node -/

/-- A task is submitted, for which there is no worker yet. -/
def awaiting : Machine :=
  asked (.fresh .fifo [] false 8) 0 (.submit (.single (.cpus 1) "h") .silent)

/-- Then another task is run as an application with a node of its own. -/
def lending : Machine :=
  asked (awaiting.advance 8).world 1
    (.runTask
      { submission := .single (.cpus 1) "h"
        resources := [{ name := "n", description := .cpus 1 }] } .silent)

/-- The moments until both calls have returned. -/
def lendingMoments : List Moment := moments 16 lending ++ (moments 8 awaiting ++ [])

theorem course_lending :
    Course (.quiet fun c => c.surface ≠ .pool) (.fresh .fifo [] false 8) lendingMoments
      ⟨(lending.advance 16).world, []⟩ :=
  (Course.start.call 0 8 (show _ ≠ _ by decide) (by decide +kernel)).call 1 16
    (show _ ≠ _ by decide) (by decide +kernel)

/-- The node of the application goes to the task that was there before. -/
theorem not_isolated_lending : ¬ Isolated lendingMoments := by
  intro hiso
  have hheld : lendingMoments.any (fun x =>
      (((x.world.carryOut x.item).1.pool.worker? (.within "n" (.issued 1))).bind fun v =>
        v.reservations.get? 1).isSome) = true := by decide +kernel
  have hmain : lendingMoments.all (fun x => x.main? ≠ some (.issued 1, 1)) = true := by
    decide +kernel
  obtain ⟨x, hx, hres⟩ := List.any_eq_true.mp hheld
  obtain ⟨need, hneed⟩ := Option.isSome_iff_exists.mp hres
  obtain ⟨v, hv, hn⟩ := Option.bind_eq_some_iff.mp hneed
  obtain ⟨y, hy, he⟩ := (hiso x hx).reserved _ 1 ⟨v, need, hv, hn⟩ (.issued 1) rfl
  exact of_decide_eq_true (List.all_eq_true.mp hmain y hy) he

/-- Not every run is isolated. -/
theorem exists_course_not_isolated :
    ∃ t m, Course (.quiet fun c => c.surface ≠ .pool) (.fresh .fifo [] false 8) t m ∧
      ¬ Isolated t :=
  ⟨lendingMoments, _, course_lending, not_isolated_lending⟩

/-- So a pass of this run picks an action for a worker that is not meant for it. -/
theorem picks_lending :
    ¬ ∀ x ∈ lendingMoments, x.runsPass = true → ∃ picks, x.world.Picks picks ∧
      ∀ y ∈ picks, Permits lendingMoments y.view.key y.action.id := fun hpicks =>
  not_isolated_lending <| (Course.isolated_iff
    (show (Conduct.quiet fun c => c.surface ≠ .pool).SparesPool from ⟨fun h => h, False.elim⟩)
    course_lending).mpr hpicks

end Machine

end TaskGrid
