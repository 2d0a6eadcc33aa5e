import TaskGrid.Proofs.Isolation
import TaskGrid.Proofs.LastWord
import TaskGrid.Proofs.Mirror
import TaskGrid.Proofs.WorkConservation

/-!
# Actions that no worker could ever carry out

A ready action is unplaced if the total of no worker that accepts actions has room for it.  Only a
pass looks for such actions, when it is done with its bindings, and it tells each of them once.
Whatever adds an action or capacity is followed by a pass; what takes capacity is not.  So an
action that was ready all the time is told too late, and perhaps never, if its last worker is lost,
asked to leave or used less: it is told by the next pass, whenever there is one.

Apart from these (`Stranded`) everything that is unplaced was told, and nothing is told that is not
so: a pass tells only what is unplaced when it ends, and if clients do not answer that is still so
when they are told.

* `Pool.CanHold`, `World.Unplaced`: what a worker could carry out, and what none could.
* `World.AllReported`: who waits for nothing knows it.
* `Moment.Strands`, `Stranded`: actions that lost the last worker that could carry them out.
* `Machine.Course.reported_iff`: what is told, and when.
-/

namespace TaskGrid

/-! ## Who could carry out an action -/

/-- A worker that was not asked to leave has a total into which an action fits. -/
def Pool.CanHold (p : Pool) (a : Action) : Prop :=
  ∃ key v, p.worker? key = some v ∧ v.removing = false ∧
    ∃ i ∈ a.task.implementations, v.total.contains i.requirement = true

/-- Who accepts actions afterwards did so before, and its total was no less. -/
def Pool.Wanes (p q : Pool) : Prop :=
  ∀ key u, q.worker? key = some u → u.removing = false →
    ∃ v, p.worker? key = some v ∧ v.removing = false ∧ ∀ c, u.total.get c ≤ v.total.get c

/-- The entry of a ready action. -/
def Schedule.Readies (s : Schedule) (id : Nat) (x : Entry) : Prop :=
  s.actions.get? id = some x ∧ x.state = .ready

/-- An action is ready and no worker could ever carry it out. -/
def World.Unplaced (w : World) (id : Nat) : Prop :=
  ∃ x, w.schedule.Readies id x ∧ ¬ w.pool.CanHold x.action

/-- The monitors of all ready actions that no worker could ever carry out were told so, and those
to whom they pass it on. -/
def World.AllReported (w : World) : Prop :=
  ∀ id x, w.schedule.Readies id x → ¬ w.pool.CanHold x.action →
    ∀ a ∈ x.monitor.hearers, .noEligibleResource id ∈ w.heard a id

/-- Whether a deed takes capacity from a worker, or the worker. -/
def Deed.takes : Deed → Bool
  | reduce .. | remove .. | lose _ => true
  | _ => false

/-- At a moment a ready action loses the last worker that could carry it out. -/
structure Moment.Strands (x : Moment) (id : Nat) : Prop where
  /-- Capacity is taken. -/
  takes : x.deed.takes = true
  /-- The action was not told that no worker could: one could, and now none can. -/
  loses : ∃ y, x.world.schedule.Readies id y ∧ .noEligibleResource ∉ y.told ∧
    x.world.pool.CanHold y.action ∧ ¬ x.after.pool.CanHold y.action

/-- Of moments, the latest first, since the last pass an action lost the last worker that could
carry it out. -/
def Stranded (id : Nat) : List Moment → Prop
  | [] => False
  | x :: t => x.runsPass = false ∧ (x.Strands id ∨ Stranded id t)

/-- Where nothing is taken, nothing is stranded. -/
theorem exists_takes_of_stranded {id : Nat} {t : List Moment} (h : Stranded id t) :
    ∃ x ∈ t, x.deed.takes = true := by
  induction t with
  | nil => exact h.elim
  | cons x t ih =>
    rcases h.2 with hx | ht
    · exact ⟨x, List.mem_cons_self, hx.takes⟩
    · obtain ⟨y, hy, htakes⟩ := ih ht
      exact ⟨y, List.mem_cons_of_mem x hy, htakes⟩

namespace Pool

variable {p q : Pool} {key : WorkerKey} {u v : Worker}

theorem isEligible_iff {a : Action} :
    Pass.isEligible (Pass.accepting p) a = true ↔ p.CanHold a := by
  unfold Pass.isEligible CanHold
  simp only [List.any_eq_true]
  constructor
  · rintro ⟨view, hview, i, hi, hfits⟩
    obtain ⟨v, hv, hacc, he⟩ := Pass.mem_accepting.mp hview
    rw [he] at hfits
    exact ⟨view.key, v, hv, hacc, i, hi, hfits⟩
  · rintro ⟨key, v, hv, hacc, i, hi, hfits⟩
    exact ⟨v.view key, Pass.mem_accepting.mpr ⟨v, hv, hacc, rfl⟩, i, hi, hfits⟩

theorem not_isEligible_iff {a : Action} :
    Pass.isEligible (Pass.accepting p) a = false ↔ ¬ p.CanHold a := by
  rw [← isEligible_iff, Bool.not_eq_true]

/-- Where less is there, less can be carried out. -/
theorem CanHold.mono {a : Action} (h : q.CanHold a) (hp : p.Wanes q) : p.CanHold a := by
  obtain ⟨key, u, hu, hacc, i, hi, hfits⟩ := h
  obtain ⟨v, hv, hacc', hle⟩ := hp key u hu hacc
  exact ⟨key, v, hv, hacc', i, hi,
    Capacity.contains_iff.mpr fun c => Nat.le_trans (Capacity.contains_iff.mp hfits c) (hle c)⟩

theorem Wanes.refl (p : Pool) : p.Wanes p := fun _ u hu hacc =>
  ⟨u, hu, hacc, fun _ => Nat.le_refl _⟩

/-- One worker is replaced by one that has no more, or accepts nothing. -/
theorem wanes_insert (hv : p.worker? key = some v) (hq : q.workers = p.workers.insert key u)
    (hless : u.removing = false → v.removing = false ∧ ∀ c, u.total.get c ≤ v.total.get c) :
    p.Wanes q := by
  intro k u' hu hacc
  rw [worker?_of_insert hq] at hu
  split at hu
  · next hk =>
    obtain rfl := Option.some_inj.mp hu
    exact ⟨v, hk ▸ hv, hless hacc⟩
  · exact Wanes.refl p k _ hu hacc

theorem wanes_erase (hq : q.workers = p.workers.erase key) : p.Wanes q := by
  intro k u hu hacc
  rw [worker?_of_erase hq] at hu
  split at hu
  · cases hu
  · exact Wanes.refl p k _ hu hacc

theorem wanes_reduce (p : Pool) (key : WorkerKey) (c : Capacity) : p.Wanes (p.reduce key c).2 := by
  rcases reduce_cases p key c with h | ⟨v, free, total, hv, -, htotal, h⟩
  · rw [h]
    exact .refl p
  · rw [h]
    refine wanes_insert (u := { v with free, total }) hv rfl fun hacc => ⟨hacc, fun d => ?_⟩
    rcases htotal with ht | ⟨-, rfl⟩
    · rw [Units.le_iff, ← Capacity.count_get_of_subtract ht d]
      exact Nat.le_add_right _ _
    · exact Nat.le_refl _

theorem wanes_drain {c : Catalog} {hook : Option RemovalHook} {n : Nat}
    (h : p.requestRemoval? c key hook = some (.draining n q)) : p.Wanes q := by
  obtain ⟨v, hv, -, -, rfl⟩ := requestRemoval?_eq_draining_iff.mp h
  exact wanes_insert hv rfl fun hacc => by cases hacc

theorem wanes_leave {c : Catalog} {hook : Option RemovalHook} {d : Departure}
    (h : p.requestRemoval? c key hook = some (.left d)) : p.Wanes d.pool := by
  obtain ⟨v, -, -, rfl⟩ := requestRemoval?_eq_left_iff.mp h
  exact wanes_erase rfl

theorem wanes_lose {c : Catalog} {d : Departure} (h : p.lose? c key = some d) :
    p.Wanes d.pool := by
  obtain ⟨v, -, rfl⟩ := lose?_eq_some_iff.mp h
  exact wanes_erase rfl

/-! ### What takes nothing -/

/-- One worker is replaced by one that has no less. -/
theorem wanes_of_insert
    (hmore : ∀ v, p.worker? key = some v → v.removing = false →
      u.removing = false ∧ ∀ c, v.total.get c ≤ u.total.get c)
    (hq : q.workers = p.workers.insert key u) : q.Wanes p := by
  intro k v hv hacc
  by_cases hk : k = key
  · subst hk
    exact ⟨u, by rw [worker?_of_insert hq, if_pos rfl], hmore v hv hacc⟩
  · exact ⟨v, by rw [worker?_of_insert hq, if_neg hk, hv], hacc, fun _ => Nat.le_refl _⟩

/-- An offer takes nothing. -/
theorem wanes_of_add (p : Pool) (key : WorkerKey) (offered : Capacity) (adaptor : Adaptor) :
    (p.add key offered adaptor).2.Wanes p := by
  refine wanes_of_insert (fun v hv hacc => ?_) (workers_add p key offered adaptor)
  rw [offeredWorker, hv, Option.getD_some, Worker.removing_offer]
  refine ⟨hacc, fun c => ?_⟩
  rw [Units.le_iff, Worker.total_offer, Capacity.count_get_merge]
  have hbound := (v.total.get c).bounded
  unfold Units.limit
  omega

/-- A worker that leaves as it was asked to takes nothing with it. -/
theorem wanes_of_erase (hremoving : ∀ v, p.worker? key = some v → v.removing = true)
    (hq : q.workers = p.workers.erase key) : q.Wanes p := by
  intro k v hv hacc
  refine ⟨v, ?_, hacc, fun _ => Nat.le_refl _⟩
  rw [worker?_of_erase hq, if_neg, hv]
  rintro rfl
  rw [hremoving v hv] at hacc
  cases hacc

end Pool

/-- The end of an action takes nothing. -/
theorem Schedule.wanes_releaseBinding (p : Pool) (x : Entry) :
    (releaseBinding p x {}).1.Wanes p := by
  rcases releaseBinding_cases p x with ⟨h, -⟩ | ⟨key, v, v', -, hv, hr, h, -⟩
  · rw [h]
    exact .refl p
  · obtain ⟨held, -, rfl⟩ := Worker.release?_eq_some_iff.mp hr
    rw [h]
    refine Pool.wanes_of_insert (u := { v with
      free := v.free.merge held, reservations := v.reservations.erase x.action.id })
      (fun u hu hacc => ?_) rfl
    rw [hv] at hu
    obtain rfl := Option.some_inj.mp hu
    exact ⟨hacc, fun _ => Nat.le_refl _⟩

/-! ## What a pass tells -/

namespace Pass

open Schedule (Readies)

variable {p : Pass} {policy : Policy} {views : List WorkerView}

/-- From one table to another, actions stay as they are but for what was told. -/
def Informs (s t : Schedule) : Prop :=
  ∀ id y, t.actions.get? id = some y → ∃ x, s.actions.get? id = some x ∧ y.action = x.action ∧
    y.state = x.state ∧ ∀ k ∈ x.told, k ∈ y.told

theorem Informs.refl (s : Schedule) : Informs s s := fun _ y hy => ⟨y, hy, rfl, rfl, fun _ h => h⟩

theorem Informs.trans {s t u : Schedule} (h : Informs s t) (h' : Informs t u) : Informs s u := by
  intro id z hz
  obtain ⟨y, hy, hact, hst, htold⟩ := h' id z hz
  obtain ⟨x, hx, hact', hst', htold'⟩ := h id y hy
  exact ⟨x, hx, hact.trans hact', hst.trans hst', fun k hk => htold k (htold' k hk)⟩

/-- An action that no worker in view could ever carry out is told so, and nothing else happens. -/
theorem informs_reportOne (views : List WorkerView) (s : Schedule) (o : Outbox) (id : Nat) :
    Informs s (reportOne views s o id).1 ∧
      ∀ y, (reportOne views s o id).1.actions.get? id = some y →
        isEligible views y.action = true ∨ .noEligibleResource ∈ y.told := by
  unfold reportOne
  cases hx : s.actions.get? id with
  | none => exact ⟨.refl s, fun y hy => by rw [hx] at hy; cases hy⟩
  | some x =>
    dsimp only
    split
    · next hfit =>
      refine ⟨.refl s, fun y hy => .inl ?_⟩
      rw [hx] at hy
      exact Option.some_inj.mp hy ▸ hfit
    · have hstanding := Entry.standing_emit x (.noEligibleResource id) o
      have htold : .noEligibleResource ∈ (x.emit (.noEligibleResource id) o).1.told ∧
          ∀ k ∈ x.told, k ∈ (x.emit (.noEligibleResource id) o).1.told := by
        by_cases hk : (Event.noEligibleResource id).kind ∈ x.told
        · rw [(Entry.emit_of_mem hk o).2]
          exact ⟨hk, fun _ h => h⟩
        · have hiff := (Entry.emit_of_notMem hk o).2
          exact ⟨(hiff _).mpr (.inr ⟨rfl, by intro hv; cases hv⟩), fun k h => (hiff k).mpr (.inl h)⟩
      refine ⟨fun j y hy => ?_, fun y hy => .inr ?_⟩
      · by_cases hj : j = id
        · subst hj
          rw [SortedMap.get?_insert_self] at hy
          obtain rfl := Option.some_inj.mp hy
          exact ⟨x, hx, congrArg Standing.action hstanding, congrArg Standing.state hstanding,
            htold.2⟩
        · rw [SortedMap.get?_insert_of_ne _ _ hj] at hy
          exact Informs.refl s j y hy
      · rw [SortedMap.get?_insert_self] at hy
        exact Option.some_inj.mp hy ▸ htold.1

/-- All actions of a list are told if no worker in view could ever carry them out. -/
theorem informs_foldl_reportOne (views : List WorkerView) (l : List Nat) (r : Schedule × Outbox) :
    Informs r.1 (l.foldl (fun r id => reportOne views r.1 r.2 id) r).1 ∧
      ∀ id ∈ l, ∀ y,
        (l.foldl (fun r id => reportOne views r.1 r.2 id) r).1.actions.get? id = some y →
          isEligible views y.action = true ∨ .noEligibleResource ∈ y.told := by
  induction l generalizing r with
  | nil => exact ⟨.refl _, fun _ hid => by cases hid⟩
  | cons i l ih =>
    obtain ⟨hone, hdone⟩ := informs_reportOne views r.1 r.2 i
    obtain ⟨hrest, hall⟩ := ih (reportOne views r.1 r.2 i)
    refine ⟨hone.trans hrest, fun id hid y hy => ?_⟩
    rcases List.mem_cons.mp hid with rfl | hid
    · obtain ⟨x, hx, hact, -, htold⟩ := hrest id y hy
      rw [hact]
      exact (hdone x hx).imp_right (htold _)
    · exact hall id hid y hy

/-- What is told of unplaced actions is told of ready ones that are unplaced. -/
theorem mem_reportIneligible {n : Monitor × Event} (h : n ∈ p.reportIneligible.outbox.events) :
    n ∈ p.outbox.events ∨ ∃ id x, n.2 = .noEligibleResource id ∧ id ∈ p.schedule.ready ∧
      p.schedule.actions.get? id = some x ∧ isEligible (accepting p.pool) x.action = false := by
  refine (List.foldlRecOn (motive := fun r : Schedule × Outbox => Informs p.schedule r.1 ∧
    ∀ n ∈ r.2.events, n ∈ p.outbox.events ∨ ∃ id x, n.2 = .noEligibleResource id ∧
      id ∈ p.schedule.ready ∧ p.schedule.actions.get? id = some x ∧
        isEligible (accepting p.pool) x.action = false)
    p.schedule.ready.toList (fun r id => reportOne (accepting p.pool) r.1 r.2 id)
    ⟨.refl _, fun _ hn => .inl hn⟩ fun r ⟨hinf, hev⟩ id hid => ?_).2 n h
  refine ⟨hinf.trans (informs_reportOne _ r.1 r.2 id).1, ?_⟩
  unfold reportOne
  cases hx : r.1.actions.get? id with
  | none => exact hev
  | some x =>
    dsimp only
    split
    · exact hev
    · next hfit =>
      intro n hn
      rw [Entry.events_emit] at hn
      rcases List.mem_append.mp hn with hn | hn
      · exact hev n hn
      · obtain ⟨y, hy, hact, -⟩ := hinf id x hx
        rw [hact, Bool.not_eq_true] at hfit
        exact .inr ⟨id, y, by rw [Entry.mem_news hn], SortedSet.mem_toList.mp hid, hy, hfit⟩

/-- The steps of a pass that nothing disturbs tell bindings. -/
theorem mem_steps (policy : Policy) (n : Nat) (h : p.Steady) {x : Monitor × Event}
    (hx : x ∈ (steps policy n p).outbox.events) : x ∈ p.outbox.events ∨ x.2.kind = .assigned := by
  induction n generalizing p with
  | zero => exact .inl hx
  | succ n ih =>
    have hbest := best?_of_calm policy h.calm
    unfold steps at hx
    cases hc : (p.best? policy).2 with
    | none =>
      rw [step_of_best?_eq_none hc, hbest] at hx
      exact .inl hx
    | some c =>
      obtain ⟨y, free, pool, hq, -, hact, hb, hs⟩ := step_of_steady h hc
      rw [hq] at hx
      rcases ih hs hx with hx | hx
      · obtain ⟨e, he, -⟩ := Schedule.standing?_eq_some_iff.mp hb.live
        rw [hact] at he
        have he' : (p.best? policy).1.schedule.actions.get? c.action.id = some e := by
          rw [hbest]
          exact he
        unfold bind at hx
        dsimp only at hx
        rw [he'] at hx
        dsimp only at hx
        rw [Entry.events_emit, hbest] at hx
        rcases List.mem_append.mp hx with hx | hx
        · exact .inl hx
        · rw [Entry.mem_news hx]
          exact .inr rfl
      · exact .inr hx

/-- When a pass that nothing disturbs has ended, every ready action knows whether no worker could
ever carry it out. -/
theorem reported_run (policy : Policy) (h : p.Steady) {id : Nat} {y : Entry}
    (hy : (p.run policy).schedule.Readies id y) :
    (p.run policy).pool.CanHold y.action ∨ .noEligibleResource ∈ y.told := by
  obtain ⟨-, hsteady⟩ := goes_steps policy p.bound h
  obtain ⟨hinf, hall⟩ := informs_foldl_reportOne (accepting (steps policy p.bound p).pool)
    (steps policy p.bound p).schedule.ready.toList
    ((steps policy p.bound p).schedule, (steps policy p.bound p).outbox)
  obtain ⟨x, hx, -, hstate, -⟩ := hinf id y hy.1
  have hready : id ∈ (steps policy p.bound p).schedule.ready :=
    hsteady.sound.ready_iff.mpr ⟨x.standing, Schedule.standing?_eq_some_iff.mpr ⟨x, hx, rfl⟩,
      hstate.symm.trans hy.2⟩
  rw [← Pool.isEligible_iff]
  exact hall id (SortedSet.mem_toList.mpr hready) y hy.1

/-- What a pass that nothing disturbs tells of unplaced actions is so when it has ended. -/
theorem unplaced_of_mem_run (policy : Policy) (h : p.Steady) (hp : p.outbox.events = [])
    {k : Monitor} {id : Nat} (hmem : (k, .noEligibleResource id) ∈ (p.run policy).outbox.events) :
    ∃ y, (p.run policy).schedule.Readies id y ∧ ¬ (p.run policy).pool.CanHold y.action := by
  obtain ⟨-, hsteady⟩ := goes_steps policy p.bound h
  rcases mem_reportIneligible hmem with hmem | ⟨i, x, he, hready, hx, hfit⟩
  · rcases mem_steps policy p.bound h hmem with hmem | hkind
    · rw [hp] at hmem
      cases hmem
    · cases hkind
  · cases he
    obtain ⟨y, hy, hstate⟩ := hsteady.sound.ready_iff.mp hready
    have hst := (restates_reportIneligible (steps policy p.bound p)).standing? id
    rw [hy] at hst
    obtain ⟨z, hz, hzy⟩ := Schedule.standing?_eq_some_iff.mp hst
    obtain ⟨x', hx', hxy⟩ := Schedule.standing?_eq_some_iff.mp hy
    rw [hx] at hx'
    obtain rfl := Option.some_inj.mp hx'
    refine ⟨z, ⟨hz, (congrArg Standing.state hzy).trans hstate⟩, ?_⟩
    rw [show z.action = x.action from congrArg Standing.action (hzy.trans hxy.symm)]
    exact Pool.not_isEligible_iff.mp hfit

end Pass

/-! ## What items do -/

/-- What ends an action is no report that no worker could carry it out. -/
theorem Event.kind_ne_of_isEnding {ev : Event} (h : ev.isEnding = true) :
    ev.kind ≠ .noEligibleResource := by
  rintro hk
  cases ev <;> cases hk
  cases h

namespace Item

/-- No item of a list tells that no worker could ever carry out an action. -/
def Reassures (l : List Item) : Prop :=
  ∀ j ∈ l, ∀ k ev, j.delivery? = some (k, ev) → ev.kind ≠ .noEligibleResource

theorem reassures_of_mute {l : List Item} (h : Mute l) : Reassures l := fun j hj k ev hd => by
  rw [h j hj] at hd
  cases hd

theorem reassures_append {l r : List Item} : Reassures (l ++ r) ↔ Reassures l ∧ Reassures r :=
  List.forall_mem_append

theorem reassures_ofOutbox {o : Outbox} (h : ∀ n ∈ o.events, n.2.kind ≠ .noEligibleResource) :
    Reassures (ofOutbox o) := fun _ hj _ _ hd => h _ (mem_events_of_ofOutbox hj hd)

end Item

namespace Schedule

theorem mem_wakeOne {name : String} {s : Schedule} {o : Outbox} {id : Nat} {n : Monitor × Event}
    (h : n ∈ (wakeOne name s o id).2.events) : n ∈ o.events ∨ n.2.kind = .ready := by
  unfold wakeOne at h
  cases hx : s.actions.get? id with
  | none =>
    rw [hx] at h
    exact .inl h
  | some x =>
    rw [hx] at h
    dsimp only at h
    split at h
    · dsimp only at h
      rw [Entry.events_emit] at h
      exact (List.mem_append.mp h).imp_right fun h => by rw [Entry.mem_news h]; rfl
    · exact .inl h

/-- Names that wake tell who is ready. -/
theorem kind_wake (s : Schedule) (name : String) :
    ∀ n ∈ (s.wake name).2.events, n.2.kind = .ready := by
  unfold wake
  split
  · exact List.forall_mem_nil _
  · next waiting _ =>
    exact List.foldlRecOn (motive := fun r : Schedule × Outbox => ∀ n ∈ r.2.events,
      n.2.kind = .ready) waiting.toList _ (List.forall_mem_nil _) fun _ hr _ _ n hn =>
        (mem_wakeOne hn).elim (hr n) id

/-- A submission tells what it begins with. -/
theorem kind_accept (s : Schedule) (c : Catalog) (task : Submission) (m : Monitor) :
    ∀ n ∈ (s.accept c task m).2.2.events, n.2.kind = .created ∨ n.2.kind = .ready := by
  unfold accept
  dsimp only
  split <;> simp [Entry.emit, Event.kind]

/-- The end of an action tells its end. -/
theorem isEnding_conclude (s : Schedule) (p : Pool) (x : Entry) (id : Nat) (ending : Ending)
    (last : ActionState) :
    ∀ n ∈ (s.conclude p x (ending.events id) last).2.2.events, n.2.isEnding = true := by
  intro n hn
  rcases Entry.mem_foldl_emit (ending.events id) x (releaseBinding p x {}).2 hn with hn | hn
  · rw [events_releaseBinding] at hn
    cases hn
  · exact Ending.isEnding_of_mem hn

theorem mem_abandonOne {key : WorkerKey} {s : Schedule} {o : Outbox} {id : Nat}
    {n : Monitor × Event} (h : n ∈ (abandonOne key s o id).2.events) :
    n ∈ o.events ∨ n.2.isEnding = true := by
  unfold abandonOne at h
  cases hx : s.actions.get? id with
  | none =>
    rw [hx] at h
    exact .inl h
  | some x =>
    rw [hx] at h
    dsimp only at h
    split at h
    · dsimp only at h
      rw [Entry.events_emit] at h
      exact (List.mem_append.mp h).imp_right fun h => by rw [Entry.mem_news h]; rfl
    · exact .inl h

/-- The actions of a lost worker tell that they failed. -/
theorem isEnding_abandon (s : Schedule) (key : WorkerKey) (ids : List Nat) :
    ∀ n ∈ (s.abandon key ids).2.events, n.2.isEnding = true :=
  List.foldlRecOn (motive := fun r : Schedule × Outbox => ∀ n ∈ r.2.events,
    n.2.isEnding = true) ids _ (List.forall_mem_nil _) fun _ hr _ _ n hn =>
      (mem_abandonOne hn).elim (hr n) id

end Schedule

namespace World

variable {w : World} {i j : Item} {rest items : List Item} {s : Schedule} {p : Pool}
  {d : List Disturbance} {e : Effect} {k : Monitor} {ev : Event}

/-- Where no pass runs, nobody becomes ready and no capacity is added, or a pass follows. -/
theorem Turn.wanes {a : List Item} (ht : w.Turn i s p d items) (h : Agrees w.schedule w.pool a)
    (hi : Moment.runsPass ⟨w, i⟩ = false) :
    w.schedule.Calms s ∧ w.pool.Wanes p ∨ .pass none ∈ items := by
  cases ht with
  | pass _ hpass => rcases hpass with ⟨token, rfl⟩ | ⟨token, rfl⟩ <;> cases hi
  | wake name _ follows =>
    exact follows.imp_left fun hr => ⟨Schedule.calms_wake h.sound hr, .refl _⟩
  | submit _ _ _ follows => exact .inr follows
  | conclude _ _ _ _ follows => exact .inr follows
  | offer _ _ _ follows => exact .inr follows
  | run marked _ => exact .inl ⟨Schedule.calms_markRunning marked, .refl _⟩
  | reduce key c _ => exact .inl ⟨.refl _, Pool.wanes_reduce _ key c⟩
  | drain asked _ => exact .inl ⟨.refl _, Pool.wanes_drain asked⟩
  | leave asked _ => exact .inl ⟨.refl _, Pool.wanes_leave asked⟩
  | lose lost _ _ => exact .inl ⟨.refl _, Pool.wanes_lose lost⟩
  | retire _ left _ =>
    obtain ⟨v, -, -, rfl⟩ := Pool.retire?_eq_some_iff.mp left
    exact .inl ⟨.refl _, Pool.wanes_erase rfl⟩
  | fail _ _ => exact .inl ⟨Schedule.calms_abandon _ _ _, .refl _⟩
  | idle _ => exact .inl ⟨.refl _, .refl _⟩

/-- Only withdrawals, requests to leave and losses take anything from those who accept actions. -/
theorem Does.takes {deed : Deed} (h : w.Does deed e) (hby : Moment.DoneBy ⟨w, i⟩ deed)
    (ha : Agrees w.schedule w.pool (i :: rest)) (hi : Moment.runsPass ⟨w, i⟩ = false)
    (hpool : ∀ token o, i ≠ .obey token (.pool o)) :
    e.1.pool.Wanes w.pool ∨ deed.takes = true := by
  have hsame {p : Pool} {b : Prop} (hp : p = w.pool) : p.Wanes w.pool ∨ b := .inl (hp ▸ .refl _)
  cases h with
  | idle still _ _ => exact hsame still.pool
  | deliver m e => exact hsame (deliver_frame w m e).2.1
  | tellHook hook r => exact hsame (tellHook_frame w hook r).2.1
  | pass =>
    rcases hby with ⟨token, he⟩ | ⟨token, he⟩ <;>
    · obtain rfl : i = _ := he
      cases hi
  | wake name =>
    refine hsame ?_
    unfold World.wake
    dsimp only
    split <;> rfl
  | @conclude _ x => exact .inl (Schedule.wanes_releaseBinding w.pool x)
  | offer key offered adaptor _ => exact .inl (Pool.wanes_of_add w.pool key offered adaptor)
  | reduce | remove | lose | lose_refused => exact .inr rfl
  | retire key seq =>
    obtain rfl : i = .retire key seq := hby
    unfold World.retire
    cases hr : w.pool.retire? w.catalog key seq with
    | none => exact hsame rfl
    | some r =>
      obtain ⟨v, hv, hseq, rfl⟩ := Pool.retire?_eq_some_iff.mp hr
      refine .inl (Pool.wanes_of_erase (fun u hu => ?_)
        (Pool.workers_depart w.pool w.catalog key v false))
      rw [hv] at hu
      obtain rfl := Option.some_inj.mp hu
      have hdrained := (ha.drained List.mem_cons_self).2 hv hseq
      rw [Worker.isDrained, Bool.and_eq_true] at hdrained
      exact hdrained.1
  | pool token o =>
    obtain ⟨token, he⟩ := hby
    exact absurd he (hpool token o)
  | _ => exact hsame rfl

/-- Nothing but a pass, or what passes its news on, tells of unplaced actions. -/
theorem Does.reassures {deed : Deed} (h : w.Does deed e) (hpass : deed ≠ .pass)
    (hsend : ∀ m ev, deed ≠ .send m ev) (hdeliver : ∀ m ev, deed ≠ .deliver m ev) :
    Item.Reassures e.2 := by
  have htacit {l : List Item} (hl : Item.Tacit l) : Item.Reassures l :=
    Item.reassures_of_mute (Item.mute_of_tacit hl)
  cases h with
  | idle _ tacit _ => exact htacit tacit
  | note => exact List.forall_mem_nil _
  | send m ev _ => exact absurd rfl (hsend m ev)
  | deliver m ev => exact absurd rfl (hdeliver m ev)
  | tellHook hook r =>
    intro j hj k ev hd
    obtain ⟨orders, rfl⟩ := mem_tellHook hj
    cases hd
  | pass => exact absurd rfl hpass
  | wake name =>
    unfold World.wake
    dsimp only
    split
    · exact List.forall_mem_nil _
    · refine Item.reassures_append.mpr ⟨Item.reassures_ofOutbox fun n hn => ?_,
        Item.reassures_of_mute (by simp [Item.delivery?])⟩
      rw [Schedule.kind_wake _ _ n hn]
      decide
  | submit task m tacit =>
    refine Item.reassures_append.mpr ⟨Item.reassures_append.mpr
      ⟨Item.reassures_ofOutbox fun n hn => ?_, Item.reassures_of_mute (by simp [Item.delivery?])⟩,
      htacit tacit⟩
    rcases Schedule.kind_accept _ _ _ _ n hn with hk | hk <;>
    · rw [hk]
      decide
  | @conclude id x ending _ _ _ tacit =>
    refine Item.reassures_append.mpr ⟨Item.reassures_append.mpr ⟨Item.reassures_append.mpr
      ⟨Item.reassures_of_mute (Item.mute_map _ fun _ => rfl),
        Item.reassures_ofOutbox fun n hn => ?_⟩,
      Item.reassures_of_mute (by simp [Item.delivery?])⟩, htacit tacit⟩
    exact Event.kind_ne_of_isEnding
      (Schedule.isEnding_conclude w.schedule w.pool x id ending ending.state n hn)
  | conclude_refused _ tacit => exact htacit tacit
  | run _ tacit => exact htacit tacit
  | run_refused _ tacit => exact htacit tacit
  | fail key ids =>
    exact Item.reassures_ofOutbox (o := { (w.schedule.abandon key ids).2 with
        capacity := (w.schedule.abandon key ids).2.capacity ++ [(key, .empty)] }) fun n hn =>
      Event.kind_ne_of_isEnding (Schedule.isEnding_abandon w.schedule key ids n hn)
  | offer key offered adaptor tacit =>
    exact Item.reassures_of_mute
      (by simp [addWorker, Item.mute_of_tacit tacit, Item.delivery?])
  | reduce key c tacit => exact htacit tacit
  | remove key hook tacit =>
    refine Item.reassures_of_mute ?_
    have htail := Item.mute_of_tacit tacit
    unfold World.removeWorker
    dsimp only
    split
    · exact htail
    · exact htail
    · simp [depart, Item.mute_ofHooks, htail, Item.delivery?]
  | lose lost tacit =>
    exact Item.reassures_of_mute
      (by simp [depart, Item.mute_ofHooks, Item.mute_of_tacit tacit, Item.delivery?])
  | lose_refused _ tacit => exact htacit tacit
  | retire key seq =>
    refine Item.reassures_of_mute ?_
    unfold World.retire
    split
    · exact Item.mute_nil
    · simp [depart, Item.mute_ofHooks, Item.delivery?]
  | pool token o =>
    exact Item.reassures_of_mute (Item.mute_append.mpr ⟨Item.mute_map _ fun _ => rfl,
      by simp [Item.delivery?, Notice.delivery?]⟩)

/-- Whoever is told that no worker could ever carry out an action is told so by a pass. -/
theorem passes_of_unplaced (hi : i.delivery? = none)
    (hsend : ∀ token app ev, i ≠ .obey token (.tellSession app ev)) (hj : j ∈ (w.carryOut i).2)
    (hd : j.delivery? = some (k, ev)) (hk : ev.kind = .noEligibleResource) :
    Moment.runsPass ⟨w, i⟩ = true ∧ (k, ev) ∈ w.passed.outbox.events := by
  have hdoes := w.does_carryOut i
  have hby := Moment.doneBy_deed ⟨w, i⟩
  have htold := (Moment.told_deed w i).1
  generalize w.carryOut i = e at hdoes hj
  generalize Moment.deed ⟨w, i⟩ = deed at hdoes hby htold
  by_cases hpass : deed = .pass
  · subst hpass
    cases hdoes with
    | pass token =>
      refine ⟨by rcases hby with ⟨_, he⟩ | ⟨_, he⟩ <;> (obtain rfl : i = _ := he; rfl), ?_⟩
      rcases List.mem_append.mp hj with hj | hj
      · rcases List.mem_append.mp hj with hj | hj
        · obtain ⟨x, -, rfl⟩ := List.mem_map.mp hj
          cases x <;> cases hd
        · exact Item.mem_events_of_ofOutbox hj hd
      · rw [Item.mute_map _ (fun _ => rfl) j hj] at hd
        cases hd
  · refine absurd hk (hdoes.reassures hpass (fun m ev he => ?_) (fun m ev he => ?_) j hj k ev hd)
    · subst he
      obtain ⟨token, app, he⟩ := hby
      exact hsend token app ev he
    · subst he
      rw [← htold] at hi
      cases hi

end World

/-! ## Who waits without knowing -/

namespace Machine

variable {t : List Moment} {m : Machine} {w : World} {i : Item} {rest : List Item} {id : Nat}

/-- Nothing disturbs a pass that runs next. -/
theorem InAgreement.steady {a : List Item} (h : InAgreement ⟨w, a⟩) :
    (Pass.start w.schedule w.pool w.catalog w.disturbances w.scored).Steady := by
  rw [show w.disturbances = [] from h.calm]
  exact h.agrees.steady w.catalog w.scored

/-- A pass is to run, or the ready actions that were stranded are just those that no worker could
ever carry out and that were not told. -/
def Reporting (t : List Moment) (m : Machine) : Prop :=
  (∃ token, .pass token ∈ m.agenda) ∨ ∀ id x, m.world.schedule.Readies id x →
    (Stranded id t ↔ .noEligibleResource ∉ x.told ∧ ¬ m.world.pool.CanHold x.action)

/-- An action that was ready before is told nothing of workers unless a pass runs. -/
theorem told_iff_of_calms (hag : InAgreement ⟨w, i :: rest⟩) (htraced : Traced ⟨w, i :: rest⟩ id)
    (hsend : ∀ token app ev, i ≠ .obey token (.tellSession app ev))
    (hi : Moment.runsPass ⟨w, i⟩ = false)
    (hcalms : w.schedule.Calms (w.carryOut i).1.schedule) {y : Entry}
    (hy : (w.carryOut i).1.schedule.Readies id y) :
    ∃ x, w.schedule.Readies id x ∧ x.action = y.action ∧
      (.noEligibleResource ∈ y.told ↔ .noEligibleResource ∈ x.told) := by
  by_cases hd : i.delivery? = none
  · obtain ⟨hlive, hready⟩ := hy
    have hst := hcalms id y.standing (Schedule.standing?_eq_some_iff.mpr ⟨y, hlive, rfl⟩) hready
    obtain ⟨x, hx, hxy⟩ := Schedule.standing?_eq_some_iff.mp hst
    refine ⟨x, ⟨hx, (congrArg Standing.state hxy).trans hready⟩, congrArg Standing.action hxy, ?_⟩
    obtain ⟨es, htells⟩ := tells_carryOut hag.agrees hag.calm hd hsend hag.not_pool
    cases htells.fate id with
    | begun accepts _ =>
      exact absurd accepts.1 (Nat.ne_of_gt (hag.agrees.sound.old hst))
    | ended _ ends =>
      obtain ⟨_, _, hgone, _⟩ := ends
      rw [hlive] at hgone
      cases hgone
    | on leads _ =>
      cases leads with
      | aside before _ _ =>
        have hnone : w.schedule.actions.get? id = none := before
        rw [hx] at hnone
        cases hnone
      | @on x' y' before after _ goes =>
        have hbefore : w.schedule.actions.get? id = some x' := before
        rw [hx] at hbefore
        obtain rfl := Option.some_inj.mp hbefore
        rw [hlive] at after
        obtain rfl := Option.some_inj.mp after
        obtain ⟨l, hl, -⟩ := htraced.exists_follows hx
        obtain ⟨new, hes, hnew⟩ := goes l hl
        rw [hnew.told, hl.told, List.map_append, List.mem_append, or_iff_left]
        -- what is new was told by the item, which runs no pass
        rintro hmem
        obtain ⟨e, he, hk⟩ := List.mem_map.mp hmem
        have hdue : e ∈ Item.dues x.monitor id (w.carryOut i).2 := by
          rw [htells.dues, hes, toHear_map, if_pos (show x.monitor ∈ x.monitor.hearers from
            List.mem_cons_self)]
          exact he
        obtain ⟨j, hj, hje⟩ := Item.mem_dues hdue
        obtain ⟨-, k, hdel⟩ := Item.exists_of_mem_due hje
        rw [(World.passes_of_unplaced hd hsend hj hdel hk).1] at hi
        cases hi
  · refine ⟨y, ?_, rfl, Iff.rfl⟩
    rwa [(relays_of_delivery? (w := w) hd).schedule] at hy

/-- Where no worker gains anything and no pass runs, an action lacks a worker and does not know it
exactly if it did before or is stranded now. -/
theorem strands_or_iff (hag : InAgreement ⟨w, i :: rest⟩) (hi : Moment.runsPass ⟨w, i⟩ = false)
    (hwanes : w.pool.Wanes (w.carryOut i).1.pool) {x : Entry} (hx : w.schedule.Readies id x) :
    (Moment.Strands ⟨w, i⟩ id ∨ .noEligibleResource ∉ x.told ∧ ¬ w.pool.CanHold x.action) ↔
      .noEligibleResource ∉ x.told ∧ ¬ (w.carryOut i).1.pool.CanHold x.action := by
  constructor
  · rintro (⟨-, x', hx', hnot, -, hcannot⟩ | ⟨hnot, hcannot⟩)
    · have hsame : w.schedule.actions.get? id = some x' := hx'.1
      rw [hx.1] at hsame
      obtain rfl := Option.some_inj.mp hsame
      exact ⟨hnot, hcannot⟩
    · exact ⟨hnot, fun hcan => hcannot (hcan.mono hwanes)⟩
  · rintro ⟨hnot, hcannot⟩
    by_cases hcan : w.pool.CanHold x.action
    · refine .inl ⟨?_, x, hx, hnot, hcan, hcannot⟩
      have htakes := World.Does.takes (w.does_carryOut i) (Moment.doneBy_deed ⟨w, i⟩)
        hag.agrees hi hag.not_pool
      exact htakes.resolve_left fun hback => hcannot (hcan.mono hback)
    · exact .inr ⟨hnot, hcan⟩

theorem Reporting.step (h : Reporting t ⟨w, i :: rest⟩) (hag : InAgreement ⟨w, i :: rest⟩)
    (htraced : ∀ id, Traced ⟨w, i :: rest⟩ id)
    (hsend : ∀ token app ev, i ≠ .obey token (.tellSession app ev)) :
    Reporting (⟨w, i⟩ :: t) (Machine.step ⟨w, i :: rest⟩) := by
  rw [step_cons]
  by_cases hi : Moment.runsPass ⟨w, i⟩ = true
  · -- what a pass leaves ready knows, and nobody was stranded since
    obtain ⟨token, he⟩ := World.carryOut_of_runsPass hi
    refine .inr fun id y hy => iff_of_false (fun hs => ?_) fun ⟨hnot, hcannot⟩ => ?_
    · rw [hs.1] at hi
      cases hi
    · dsimp only at hy hcannot
      rw [he] at hy hcannot
      exact (Pass.reported_run w.policy hag.steady hy).elim hcannot hnot
  · rw [Bool.not_eq_true] at hi
    rcases World.Turn.wanes hag.turns hag.agrees hi with ⟨hcalms, hwanes⟩ | hpass
    · rcases h with ⟨token, hj⟩ | h
      · rcases List.mem_cons.mp hj with rfl | hj
        · cases hi
        · exact .inl ⟨token, List.mem_append_right _ hj⟩
      · refine .inr fun id y hy => ?_
        obtain ⟨x, hx, hact, htold⟩ := told_iff_of_calms hag (htraced id) hsend hi hcalms hy
        have hbefore := h id x hx
        dsimp only at hbefore
        show Moment.runsPass ⟨w, i⟩ = false ∧ (Moment.Strands ⟨w, i⟩ id ∨ Stranded id t) ↔ _
        rw [htold, ← hact, and_iff_right hi, hbefore]
        exact strands_or_iff hag hi hwanes hx
    · exact .inl ⟨none, List.mem_append_left rest hpass⟩

/-! ## What is told is so -/

/-- Whatever an item has told of unplaced actions is so when the item is done, which runs a pass. -/
theorem unplaced_of_told (hag : InAgreement ⟨w, i :: rest⟩) (hi : i.delivery? = none)
    (hsend : ∀ token app ev, i ≠ .obey token (.tellSession app ev)) {j : Item}
    (hj : j ∈ (w.carryOut i).2) {k : Monitor}
    (hd : j.delivery? = some (k, .noEligibleResource id)) :
    Moment.runsPass ⟨w, i⟩ = true ∧ (w.carryOut i).1.Unplaced id := by
  obtain ⟨hpass, hmem⟩ := World.passes_of_unplaced hi hsend hj hd rfl
  obtain ⟨token, he⟩ := World.carryOut_of_runsPass hpass
  refine ⟨hpass, ?_⟩
  rw [he]
  exact Pass.unplaced_of_mem_run w.policy hag.steady rfl hmem

/-- What only tells places no action. -/
theorem unplaced_of_isMild (hi : i.isMild = true) (h : w.Unplaced id) :
    (w.carryOut i).1.Unplaced id := by
  have hpool : (w.carryOut i).1.pool = w.pool := by
    refine (World.still_carryOut w ?_).1
    cases i <;> first | exact hi | cases hi
  unfold World.Unplaced
  rw [(relays_of_isMild (w := w) hi).schedule, hpool]
  exact h

/-- What is to be told of unplaced actions is so, and only items that just tell come before it. -/
def Truthful (m : Machine) : Prop :=
  ∃ front back, m.agenda = front ++ back ∧ (∀ j ∈ front, j.isMild = true) ∧
    (∀ j ∈ front, ∀ k id, j.delivery? = some (k, .noEligibleResource id) → m.world.Unplaced id) ∧
    ∀ j ∈ back, ∀ k id, j.delivery? ≠ some (k, .noEligibleResource id)

/-- What is told of unplaced actions is so. -/
theorem Truthful.unplaced (h : Truthful ⟨w, i :: rest⟩) {k : Monitor}
    (hd : i.delivery? = some (k, .noEligibleResource id)) : w.Unplaced id := by
  obtain ⟨front, back, hl, -, hfront, hback⟩ := h
  cases front with
  | nil =>
    obtain rfl : i :: rest = back := hl
    exact absurd hd (hback i List.mem_cons_self k id)
  | cons j front =>
    obtain ⟨rfl, -⟩ := List.cons.inj hl
    exact hfront i List.mem_cons_self k id hd

theorem Truthful.step (h : Truthful ⟨w, i :: rest⟩) (hag : InAgreement ⟨w, i :: rest⟩)
    (hsend : ∀ token app ev, i ≠ .obey token (.tellSession app ev)) :
    Truthful (Machine.step ⟨w, i :: rest⟩) := by
  rw [step_cons]
  obtain ⟨front, back, hl, hmild, hfront, hback⟩ := h
  cases front with
  | cons j front =>
    obtain ⟨rfl, rfl⟩ := List.cons.inj hl
    have hi : i.isMild = true := hmild i List.mem_cons_self
    have hr := relays_of_isMild (w := w) hi
    refine ⟨(w.carryOut i).2 ++ front, back, (List.append_assoc ..).symm, fun j hj => ?_,
      fun j hj k id hd => unplaced_of_isMild hi ?_, hback⟩
    · exact (List.mem_append.mp hj).elim (hr.mild hi j) fun hj =>
        hmild j (List.mem_cons_of_mem i hj)
    · rcases List.mem_append.mp hj with hj | hj
      · by_cases hdel : i.delivery? = none
        · cases i with
          | prompt => cases hj
          | deliver => cases hdel
          | _ => cases hi
        · obtain ⟨k', hk'⟩ := (relayed_of_mem hdel hj).2 k _ hd
          exact hfront i List.mem_cons_self k' id hk'
      · exact hfront j (List.mem_cons_of_mem i hj) k id hd
  | nil =>
    obtain rfl : i :: rest = back := hl
    have hrest : ∀ j ∈ rest, ∀ k id, j.delivery? ≠ some (k, .noEligibleResource id) :=
      fun j hj => hback j (List.mem_cons_of_mem i hj)
    by_cases hi : i.delivery? = none
    · obtain ⟨es, htells⟩ := tells_carryOut hag.agrees hag.calm hi hsend hag.not_pool
      obtain ⟨mild, past, hitems, hmild', hpast⟩ := htells.orderly
      have hso {j : Item} (hj : j ∈ (w.carryOut i).2) {k : Monitor} {id : Nat}
          (hd : j.delivery? = some (k, .noEligibleResource id)) :
          (w.carryOut i).1.Unplaced id := (unplaced_of_told hag hi hsend hj hd).2
      refine ⟨mild, past ++ rest, by rw [hitems, List.append_assoc], hmild', fun j hj k id hd =>
        hso (hitems ▸ List.mem_append_left past hj) hd, fun j hj k id hd => ?_⟩
      rcases List.mem_append.mp hj with hj | hj
      · -- what is told last is told of actions that are over
        obtain ⟨y, ⟨hy, -⟩, -⟩ := hso (hitems ▸ List.mem_append_right mild hj) hd
        have hgone : (w.carryOut i).1.schedule.actions.get? id = none := (hpast j hj k _ hd).1
        rw [hy] at hgone
        cases hgone
      · exact hrest j hj k id hd
    · refine ⟨[], (w.carryOut i).2 ++ rest, rfl, List.forall_mem_nil _, List.forall_mem_nil _,
        fun j hj k id hd => ?_⟩
      rcases List.mem_append.mp hj with hj | hj
      · obtain ⟨k', hk'⟩ := (relayed_of_mem hi hj).2 k _ hd
        exact hback i List.mem_cons_self k' id hk'
      · exact hrest j hj k id hd

/-! ## Every run -/

variable {rule : Conduct} {policy : Policy} {localNodes : List String} {withholds : Bool}
  {limit : Nat}

theorem Course.reporting (hrule : rule.Honest)
    (h : Course rule (World.fresh policy localNodes withholds limit) t m) : Reporting t m := by
  induction h with
  | start => exact .inr fun id x hx => by cases hx.1
  | ask token _ _ ih =>
    rcases ih with ⟨_, hj⟩ | hall
    · cases hj
    · exact .inr hall
  | item hc ih =>
    exact ih.step (hc.inAgreement hrule.spares) (hc.traced hrule) (hc.not_tellSession hrule)
  | answer given _ _ ih =>
    rcases ih with ⟨token, hj⟩ | hall
    · rcases List.mem_cons.mp hj with he | hj
      · cases he
      · exact .inl ⟨token, List.mem_append_right _ hj⟩
    · exact .inr hall

theorem Course.truthful (hrule : rule.Honest) (hquiet : ∀ {c}, ¬ rule.answers c)
    (h : Course rule (World.fresh policy localNodes withholds limit) t m) : Truthful m := by
  induction h with
  | start =>
    exact ⟨[], [], rfl, List.forall_mem_nil _, List.forall_mem_nil _, List.forall_mem_nil _⟩
  | ask token _ _ _ =>
    refine ⟨[], _, rfl, List.forall_mem_nil _, List.forall_mem_nil _, fun j hj k id hd => ?_⟩
    rw [List.mem_singleton.mp hj] at hd
    cases hd
  | item hc ih => exact ih.step (hc.inAgreement hrule.spares) (hc.not_tellSession hrule)
  | @answer t w p rest given _ hg ih =>
    obtain rfl : given = [] :=
      List.eq_nil_iff_forall_not_mem.mpr fun g hmem => hquiet (hg g hmem)
    obtain ⟨front, back, hl, hmild, hfront, hback⟩ := ih
    cases front with
    | cons j front =>
      obtain ⟨rfl, rfl⟩ := List.cons.inj hl
      exact ⟨front, back, rfl, fun j hj => hmild j (List.mem_cons_of_mem _ hj),
        fun j hj => hfront j (List.mem_cons_of_mem _ hj), hback⟩
    | nil =>
      obtain rfl : .prompt p :: rest = back := hl
      exact ⟨[], rest, rfl, List.forall_mem_nil _, List.forall_mem_nil _,
        fun j hj => hback j (List.mem_cons_of_mem _ hj)⟩

/-- Between calls the monitor of an action was told that no worker could ever carry it out exactly
if the table says so. -/
theorem Course.heard_iff_told (hrule : rule.Honest)
    (h : Course rule (World.fresh policy localNodes withholds limit) t m) (hdone : m.agenda = [])
    {x : Entry} (hx : m.world.schedule.actions.get? id = some x) {a : Monitor}
    (ha : a ∈ x.monitor.hearers) :
    .noEligibleResource id ∈ m.world.heard a id ↔ .noEligibleResource ∈ x.told := by
  obtain ⟨l, hl, hperm⟩ := h.heard_perm hrule hdone hx
  rw [(hperm a ha).mem_iff, hl.told, List.mem_map]
  refine ⟨fun hmem => ⟨_, hmem, rfl⟩, fun ⟨e, he, hk⟩ => ?_⟩
  obtain ⟨hid, -⟩ := hl.opening.mem he
  cases e <;> cases hk
  exact hid ▸ he

/-- Whatever was asked and whatever clients answered, between calls every ready action that no
worker could ever carry out was told so, but for those that lost their last worker since the last
pass: to a withdrawal, a request to leave or a loss.  What is told is so: a pass tells it, of ready
actions that no worker could ever carry out when it has ended; and if clients do not answer, then it
is still so when they are told. -/
theorem Course.reported_iff (hrule : rule.Honest)
    (h : Course rule (World.fresh policy localNodes withholds limit) t m) :
    (m.agenda = [] → (m.world.AllReported ↔
      ∀ id, Stranded id t → ∀ x, ¬ m.world.schedule.Readies id x)) ∧
    (∀ x ∈ t, x.item.delivery? = none → ∀ k id,
      .deliver k (.noEligibleResource id) ∈ (x.world.carryOut x.item).2 →
        x.runsPass = true ∧ x.after.Unplaced id) ∧
    ((∀ {c}, ¬ rule.answers c) → ∀ x ∈ t, ∀ k id,
      x.item.delivery? = some (k, .noEligibleResource id) → x.world.Unplaced id) := by
  refine ⟨fun hdone => ?_, fun x hx hd k id hmem => ?_, fun hquiet x hx k id hd => ?_⟩
  · have hrep : ∀ id x, m.world.schedule.Readies id x →
        (Stranded id t ↔ .noEligibleResource ∉ x.told ∧ ¬ m.world.pool.CanHold x.action) := by
      refine (h.reporting hrule).resolve_left ?_
      rintro ⟨token, hj⟩
      rw [hdone] at hj
      cases hj
    constructor
    · intro hall id hs x hx
      obtain ⟨hnot, hcannot⟩ := (hrep id x hx).mp hs
      exact hnot ((h.heard_iff_told hrule hdone hx.1 List.mem_cons_self).mp
        (hall id x hx hcannot x.monitor List.mem_cons_self))
    · intro hnone id x hx hcannot a ha
      rw [h.heard_iff_told hrule hdone hx.1 ha]
      by_contra hnot
      exact hnone id ((hrep id x hx).mpr ⟨hnot, hcannot⟩) x hx
  · obtain ⟨t₁, t₀, rfl⟩ := List.append_of_mem hx
    obtain ⟨rest, hbefore⟩ := h.before
    exact unplaced_of_told (hbefore.inAgreement hrule.spares) hd (hbefore.not_tellSession hrule)
      hmem rfl
  · obtain ⟨t₁, t₀, rfl⟩ := List.append_of_mem hx
    obtain ⟨rest, hbefore⟩ := h.before
    exact (hbefore.truthful hrule hquiet).unplaced hd

/-! ### A worker that is used less while a task waits for all of it -/

/-- A worker with two units is offered. -/
def stocking : Machine :=
  asked (.fresh .fifo [] false 8) 0 (.addWorker (.permanent "n") (.cpus (1 + 1)) default)

/-- A task takes one of them. -/
def seating : Machine :=
  asked (stocking.advance 5).world 1 (.submit (.single (.cpus 1) "h") .silent)

/-- A client wants three units. -/
def overreaching : Machine :=
  asked (seating.advance 8).world 2 (.submit (.single (.cpus (1 + 1 + 1)) "h") (.client 1 "c"))

/-- Or else it wants both units, and has to wait. -/
def pining : Machine :=
  asked (seating.advance 8).world 2 (.submit (.single (.cpus (1 + 1)) "h") (.client 1 "c"))

/-- The worker is used for one unit less. -/
def shrinking : Machine :=
  asked (pining.advance 9).world 3 (.reduceWorker (.permanent "n") (.cpus 1))

/-- The moments until a unit is taken. -/
def seatingMoments : List Moment := moments 8 seating ++ (moments 5 stocking ++ [])

theorem honest_quiet : (Conduct.quiet fun c => c.surface = .scheduler).Honest :=
  ⟨⟨honest_scheduler.spares.asks, False.elim⟩, honest_scheduler.asks, False.elim⟩

theorem course_seating :
    Course (.quiet fun c => c.surface = .scheduler) (.fresh .fifo [] false 8) seatingMoments
      ⟨(seating.advance 8).world, []⟩ :=
  (Course.start.call 0 5 (show _ = _ from rfl) (by decide +kernel)).call 1 8
    (show _ = _ from rfl) (by decide +kernel)

/-- Who wants three units is told at once. -/
theorem allReported_overreaching :
    (overreaching.advance 11).world.AllReported ∧
      .noEligibleResource 2 ∈ (overreaching.advance 11).world.heard (.client 1 "c") 2 ∧
      ∀ x ∈ moments 11 overreaching ++ seatingMoments, ∀ k id,
        x.item.delivery? = some (k, .noEligibleResource id) → x.world.Unplaced id := by
  have hcourse : Course (.quiet fun c => c.surface = .scheduler) (.fresh .fifo [] false 8)
      (moments 11 overreaching ++ seatingMoments) ⟨(overreaching.advance 11).world, []⟩ :=
    course_seating.call 2 11 (show _ = _ from rfl) (by decide +kernel)
  have hkeeps : ∀ x ∈ moments 11 overreaching ++ seatingMoments, ¬ x.deed.takes = true := by
    decide +kernel
  obtain ⟨hall, -, hso⟩ := Course.reported_iff honest_quiet hcourse
  refine ⟨(hall rfl).mpr fun id hs => ?_, by decide +kernel, hso False.elim⟩
  obtain ⟨x, hx, htakes⟩ := exists_takes_of_stranded hs
  exact absurd htakes (hkeeps x hx)

/-- Who waits for two units is not told that they are no longer there. -/
theorem not_allReported_shrinking :
    Course (.quiet fun c => c.surface = .scheduler) (.fresh .fifo [] false 8)
        (moments 3 shrinking ++ (moments 9 pining ++ seatingMoments))
        ⟨(shrinking.advance 3).world, []⟩ ∧
      (shrinking.advance 3).world.Unplaced 2 ∧
      (shrinking.advance 3).world.heard (.client 1 "c") 2 = [.created 2, .ready 2] ∧
      ¬ (shrinking.advance 3).world.AllReported := by
  have hcourse := (course_seating.call 2 9 (c := .submit (.single (.cpus (1 + 1)) "h")
    (.client 1 "c")) (show _ = _ from rfl) (by decide +kernel)).call 3 3
    (c := .reduceWorker (.permanent "n") (.cpus 1)) (show _ = _ from rfl) (by decide +kernel)
  have hheard : (shrinking.advance 3).world.heard (.client 1 "c") 2 = [.created 2, .ready 2] := by
    decide +kernel
  obtain ⟨x, hx, hwaits⟩ := (Option.any_eq_true (fun x : Entry => decide (x.state = .ready ∧
    Pass.isEligible (Pass.accepting (shrinking.advance 3).world.pool) x.action = false ∧
      x.monitor = .client 1 "c")) ((shrinking.advance 3).world.schedule.actions.get? 2)).mp
    (by decide +kernel)
  obtain ⟨hstate, hfit, hmonitor⟩ := of_decide_eq_true hwaits
  have hcannot := Pool.not_isEligible_iff.mp hfit
  refine ⟨hcourse, ⟨x, ⟨hx, hstate⟩, hcannot⟩, hheard, fun hall => ?_⟩
  have hmem := hall 2 x ⟨hx, hstate⟩ hcannot x.monitor List.mem_cons_self
  rw [hmonitor, hheard] at hmem
  simp at hmem

end Machine

end TaskGrid
