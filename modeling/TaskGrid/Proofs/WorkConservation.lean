import TaskGrid.Proofs.Agreement

/-!
# No work waits beside free capacity

Between calls no ready action fits into what is free on a worker that accepts actions.  Capacity
becomes free and actions become ready in many places, and each of them puts a pass on the agenda;
everything else can only take candidates away.  So at every step either nothing fits or a pass is
still to run, and when the agenda is empty nothing fits.

* `Schedule.Calms`, `Pool.Shrinks`: changes that take candidates away.
* `World.Turn.nothingFits`: every turn leaves nothing that fits, or a pass to run.
* `Machine.Reached.conserving`: between calls nothing fits.
-/

namespace TaskGrid

open Item (Plain)
open Pass (NothingFits)

/-- What is ready afterwards was ready before. -/
def Schedule.Calms (s t : Schedule) : Prop :=
  ∀ id x, t.standing? id = some x → x.state = .ready → s.standing? id = some x

/-- Who accepts actions afterwards did so before, and had no less free. -/
def Pool.Shrinks (p q : Pool) : Prop :=
  ∀ key u, q.worker? key = some u → u.removing = false →
    ∃ v, p.worker? key = some v ∧ v.removing = false ∧ ∀ c, u.free.get c ≤ v.free.get c

/-- Where nothing fits, nothing fits after candidates were taken away. -/
theorem Pass.NothingFits.mono {s t : Schedule} {p q : Pool} (h : NothingFits s p)
    (hs : s.Calms t) (hp : p.Shrinks q) : NothingFits t q := by
  intro id x key u hx hready hu hacc i hi
  obtain ⟨v, hv, hacc', hle⟩ := hp key u hu hacc
  exact Capacity.not_contains_of_le hle (h id x key v (hs id x hx hready) hready hv hacc' i hi)

namespace Schedule

variable {s t : Schedule}

theorem Calms.refl (s : Schedule) : s.Calms s := fun _ _ hx _ => hx

theorem calms_of_dismissed (h : ∀ j, t.standing? j = none ∨ t.standing? j = s.standing? j) :
    s.Calms t := by
  intro id x hx _
  rw [(h id).resolve_left (by simp [hx])] at hx
  exact hx

theorem calms_abandon (s : Schedule) (key : WorkerKey) (ids : List Nat) :
    s.Calms (s.abandon key ids).1 := calms_of_dismissed fun j => by
  rw [standing?_abandon]
  split
  · exact .inl rfl
  · exact .inr rfl

theorem calms_markRunning {id : Nat} (h : s.markRunning? id = some t) : s.Calms t := by
  obtain ⟨-, -, y, -, -, ht⟩ := markRunning?_eq_some h
  intro j x hx hready
  rw [ht] at hx
  split at hx
  · rw [← Option.some_inj.mp hx] at hready
    cases hready
  · exact hx

theorem calms_wake (hs : s.Sound) {name : String} (hr : (s.wake name).1.ready = s.ready) :
    s.Calms (s.wake name).1 := by
  intro id x hx _
  rw [standing?_wake_of_ready_eq hs hr] at hx
  exact hx

end Schedule

namespace Pool

variable {p q : Pool} {key : WorkerKey} {v : Worker}

theorem Shrinks.refl (p : Pool) : p.Shrinks p := fun _ u hu hacc =>
  ⟨u, hu, hacc, fun _ => Nat.le_refl _⟩

theorem shrinks_of_erase (hq : q.workers = p.workers.erase key) : p.Shrinks q := by
  intro k u hu hacc
  rw [worker?_of_erase hq] at hu
  split at hu
  · cases hu
  · exact Shrinks.refl p k u hu hacc

theorem shrinks_reduce (p : Pool) (key : WorkerKey) (c : Capacity) :
    p.Shrinks (p.reduce key c).2 := by
  rcases reduce_cases p key c with h | ⟨v, free, total, hv, hf, -, h⟩
  · rw [h]
    exact .refl p
  · rw [h]
    intro k u hu hacc
    rw [worker?_of_insert rfl] at hu
    split at hu
    · next hk =>
      rw [← Option.some_inj.mp hu] at hacc ⊢
      refine ⟨v, hk ▸ hv, hacc, ?_⟩
      intro c
      rw [Units.le_iff, ← Capacity.count_get_of_subtract hf c]
      exact Nat.le_add_right _ _
    · exact Shrinks.refl p k u hu hacc

theorem shrinks_drain {c : Catalog} {hook : Option RemovalHook} {n : Nat}
    (h : p.requestRemoval? c key hook = some (.draining n q)) : p.Shrinks q := by
  obtain ⟨v, -, -, -, rfl⟩ := requestRemoval?_eq_draining_iff.mp h
  intro k u hu hacc
  rw [worker?_of_insert rfl] at hu
  split at hu
  · -- a worker that was asked to leave accepts nothing
    rw [← Option.some_inj.mp hu] at hacc
    cases hacc
  · exact Shrinks.refl p k u hu hacc

theorem shrinks_leave {c : Catalog} {hook : Option RemovalHook} {d : Departure}
    (h : p.requestRemoval? c key hook = some (.left d)) : p.Shrinks d.pool := by
  obtain ⟨v, -, -, rfl⟩ := requestRemoval?_eq_left_iff.mp h
  exact shrinks_of_erase rfl

theorem shrinks_lose {c : Catalog} {d : Departure} (h : p.lose? c key = some d) :
    p.Shrinks d.pool := by
  obtain ⟨v, -, rfl⟩ := lose?_eq_some_iff.mp h
  exact shrinks_of_erase rfl

end Pool

namespace World

variable {w : World} {i : Item} {s : Schedule} {p : Pool} {d : List Disturbance} {items : List Item}

/-- A pass that nothing disturbs leaves nothing that fits. -/
theorem nothingFits_passed {a : List Item} (h : Agrees w.schedule w.pool a)
    (hcalm : w.disturbances = []) : NothingFits w.passed.schedule w.passed.pool := by
  have hsteady := h.steady w.catalog w.scored
  rw [← hcalm] at hsteady
  exact (Pass.run_of_steady w.policy hsteady).2.1

/-- Where nothing fits, every turn leaves nothing that fits or leads to a pass. -/
theorem Turn.nothingFits {a : List Item} (ht : w.Turn i s p d items)
    (h : Agrees w.schedule w.pool a) (hcalm : w.disturbances = [])
    (hn : NothingFits w.schedule w.pool) : NothingFits s p ∨ .pass none ∈ items := by
  cases ht with
  | pass _ _ => exact .inl (nothingFits_passed h hcalm)
  | wake name _ follows =>
    rcases follows with hr | hpass
    · exact .inl (hn.mono (Schedule.calms_wake h.sound hr) (.refl _))
    · exact .inr hpass
  | submit _ _ _ follows => exact .inr follows
  | conclude _ _ _ _ follows => exact .inr follows
  | offer _ _ _ follows => exact .inr follows
  | run marked _ => exact .inl (hn.mono (Schedule.calms_markRunning marked) (.refl _))
  | reduce key c _ => exact .inl (hn.mono (.refl _) (Pool.shrinks_reduce _ key c))
  | drain asked _ => exact .inl (hn.mono (.refl _) (Pool.shrinks_drain asked))
  | leave asked _ => exact .inl (hn.mono (.refl _) (Pool.shrinks_leave asked))
  | lose lost _ _ => exact .inl (hn.mono (.refl _) (Pool.shrinks_lose lost))
  | retire _ left _ =>
    obtain ⟨v, -, -, rfl⟩ := Pool.retire?_eq_some_iff.mp left
    exact .inl (hn.mono (.refl _) (Pool.shrinks_of_erase rfl))
  | fail _ _ => exact .inl (hn.mono (Schedule.calms_abandon _ _ _) (.refl _))
  | idle _ => exact .inl hn

/-- No ready action fits, in any of its implementations, into what is free on a registered worker
that was not asked to leave. -/
def Conserving (w : World) : Prop :=
  ∀ id x key v, w.schedule.actions.get? id = some x → x.state = .ready →
    w.pool.worker? key = some v → v.removing = false →
    ∀ i ∈ x.action.task.implementations, v.free.contains i.requirement = false

theorem conserving_iff : w.Conserving ↔ NothingFits w.schedule w.pool := by
  constructor
  · intro h id x key v hx hready hv hacc
    obtain ⟨e, he, rfl⟩ := Schedule.standing?_eq_some_iff.mp hx
    exact h id e key v he hready hv hacc
  · intro h id x key v hx hready hv hacc
    exact h id x.standing key v (Schedule.standing?_eq_some_iff.mpr ⟨x, hx, rfl⟩) hready hv hacc

/-- A loss, a withdrawal and a request to leave run no pass, and take candidates away only. -/
theorem Conserving.departures (h : w.Conserving) (token : Nat) (key : WorkerKey) (c : Capacity)
    (hook : Option RemovalHook) (byAgent : Bool) :
    (w.loseWorker token key byAgent).1.Conserving ∧ (w.reduceWorker token key c).1.Conserving ∧
      (w.removeWorker key hook).2.1.Conserving := by
  have hshrink {w' : World} (hs : w'.schedule = w.schedule) (hp : w.pool.Shrinks w'.pool) :
      w'.Conserving := by
    rw [conserving_iff, hs]
    exact (conserving_iff.mp h).mono (.refl _) hp
  refine ⟨?_, ?_, ?_⟩
  · unfold loseWorker
    cases hl : w.pool.lose? w.catalog key with
    | none => exact h
    | some d => exact hshrink rfl (Pool.shrinks_lose hl)
  · have hred := Pool.shrinks_reduce w.pool key c
    unfold reduceWorker
    generalize w.pool.reduce key c = r at hred ⊢
    obtain ⟨answer, q⟩ := r
    cases answer with
    | error f => exact hshrink rfl hred
    | ok v => exact hshrink rfl hred
  · unfold removeWorker
    cases hr : w.pool.requestRemoval? w.catalog key hook with
    | none => exact h
    | some r =>
      cases r with
      | draining n q => exact hshrink rfl (Pool.shrinks_drain hr)
      | left d => exact hshrink rfl (Pool.shrinks_leave hr)

end World

namespace Machine

variable {rule : Conduct} {policy : Policy} {localNodes : List String} {withholds : Bool}
  {limit : Nat} {t : List Moment} {m : Machine}

/-- Nothing fits, or a pass is still to run. -/
def WorkConserved (m : Machine) : Prop :=
  NothingFits m.world.schedule m.world.pool ∨ ∃ token, .pass token ∈ m.agenda

theorem WorkConserved.step {w : World} {i : Item} {rest : List Item}
    (hag : InAgreement ⟨w, i :: rest⟩) (h : WorkConserved ⟨w, i :: rest⟩) :
    WorkConserved (Machine.step ⟨w, i :: rest⟩) := by
  rw [step_cons]
  by_cases hi : ∃ token, i = .pass token
  · obtain ⟨token, rfl⟩ := hi
    exact .inl (World.nothingFits_passed hag.agrees hag.calm)
  · have hturn := hag.turns
    rcases h with hn | ⟨token, hj⟩
    · rcases hturn.nothingFits hag.agrees hag.calm hn with hn' | hpass
      · exact .inl hn'
      · exact .inr ⟨none, List.mem_append_left rest hpass⟩
    · rcases List.mem_cons.mp hj with he | hj
      · exact absurd ⟨token, he.symm⟩ hi
      · exact .inr ⟨token, List.mem_append_right _ hj⟩

/-- At every step of every run, nothing fits or a pass is still to run. -/
theorem Course.workConserved (hrule : rule.SparesPool)
    (h : Course rule (World.fresh policy localNodes withholds limit) t m) : m.WorkConserved := by
  induction h with
  | start => exact .inl fun id x key v hx => by cases hx
  | ask token _ _ ih =>
    rcases ih with hn | ⟨_, hj⟩
    · exact .inl hn
    · cases hj
  | item hc ih => exact ih.step (hc.inAgreement hrule)
  | answer given _ _ ih =>
    rcases ih with hn | ⟨token, hj⟩
    · exact .inl hn
    · rcases List.mem_cons.mp hj with he | hj
      · cases he
      · exact .inr ⟨token, List.mem_append_right _ hj⟩

/-- Between calls, whatever was asked of the scheduler, the agent and the catalog, no ready action
fits on a worker that accepts actions; and this stays so when a worker is lost, used less or asked
to leave, although no pass runs then. -/
theorem Reached.conserving (hrule : rule.SparesPool) {w : World}
    (h : Reached rule (World.fresh policy localNodes withholds limit) w) :
    w.Conserving ∧ ∀ token key c hook byAgent,
      (w.loseWorker token key byAgent).1.Conserving ∧ (w.reduceWorker token key c).1.Conserving ∧
        (w.removeWorker key hook).2.1.Conserving := by
  obtain ⟨l, hl⟩ := h
  obtain ⟨t, ht⟩ := hl.exists_course
  have hw : w.Conserving := by
    rcases ht.workConserved hrule with hn | ⟨token, hj⟩
    · exact World.conserving_iff.mpr hn
    · cases hj
  exact ⟨hw, fun token key c hook byAgent => hw.departures token key c hook byAgent⟩

/-! ### A grid with an action that waits -/

/-- A worker with one unit is offered. -/
def opening : Machine :=
  asked (.fresh .fifo [] false 8) 0 (.addWorker (.permanent "n") (.cpus 1) default)

/-- A task takes the unit. -/
def filling : Machine :=
  asked (opening.advance 5).world 1 (.submit (.single (.cpus 1) "h") .silent)

/-- A second task has to wait for it. -/
def queueing : Machine :=
  asked (filling.advance 8).world 2 (.submit (.single (.cpus 1) "h") .silent)

theorem course_queueing :
    Course (.quiet fun c => c.surface ≠ .pool) (.fresh .fifo [] false 8)
      (moments 7 queueing ++ (moments 8 filling ++ (moments 5 opening ++ [])))
      ⟨(queueing.advance 7).world, []⟩ :=
  ((Course.start.call 0 5 (show _ ≠ _ by decide) (by decide +kernel)).call 1 8
    (show _ ≠ _ by decide) (by decide +kernel)).call 2 7 (show _ ≠ _ by decide) (by decide +kernel)

theorem conserving_queueing :
    (queueing.advance 7).world.schedule.stateOf? 2 = some .ready ∧
      (queueing.advance 7).world.Conserving :=
  ⟨by decide +kernel, (Reached.conserving
    (show (Conduct.quiet fun c => c.surface ≠ .pool).SparesPool from ⟨fun h => h, False.elim⟩)
    course_queueing.run).1⟩

end Machine

end TaskGrid
