import TaskGrid.Proofs.Instances
import TaskGrid.Proofs.Waiting

/-!
# Workers that were asked to leave

A worker that was asked to leave is given nothing more, and leaves once nothing is bound to it.
Whoever asked may have left a hook, which is told when the worker leaves.  What this comes to in a
run is said about the moments of its course: who was asked to leave, which hooks were given, and
who left.

## The invariant

The pool keeps of a worker whether it was asked to leave and which hooks were given, and the course
tells the same (`Roster`).  A worker can be let leave only in the call that ends the last action
that was bound to it: from then on the item that lets it leave is on the agenda, so that the call
does not return before it left (`Draining`).

* `askedToLeave`, `hooksGiven`, `departures`: what happened to workers in a course.
* `Moment.EndsLast`: the last action ends that was bound to a worker.
* `Roster.step`, `Draining.step`: the step lemmas.
* `Machine.DrainProtocol`, `Machine.Course.drainProtocol`: how workers leave.
-/

namespace TaskGrid

/-! ## What happened to workers -/

/-- Whether the worker registered as `seq` was asked to leave. -/
def askedToLeave (t : List Moment) (seq : Nat) : Bool := t.any fun x => x.asksToLeave seq

/-- The hooks that were given to the worker registered as `seq`, oldest first. -/
def hooksGiven (t : List Moment) (seq : Nat) : List RemovalHook :=
  t.reverse.flatMap fun x => x.hooksGiven seq

/-- The workers that left, each as it was until then with its departure, oldest first. -/
def departures (t : List Moment) : List (Worker × Pool.Departure) :=
  t.reverse.filterMap Moment.departure?

/-- The departures of the worker registered as `seq`. -/
def departuresOf (t : List Moment) (seq : Nat) : List (Worker × Pool.Departure) :=
  (departures t).filter fun r => r.1.seq = seq

/-- Whether an item is a command. -/
def Item.isCommand : Item → Bool
  | .obey .. => true
  | _ => false

/-- The moment at which the last call began. -/
def call? (t : List Moment) : Option Moment := t.find? fun x => x.item.isCommand

section Cons

variable (x : Moment) (t : List Moment) (seq : Nat)

@[simp] theorem askedToLeave_cons :
    askedToLeave (x :: t) seq = (x.asksToLeave seq || askedToLeave t seq) := List.any_cons

variable {x t seq} in
theorem askedToLeave_later (h : askedToLeave t seq = true) : askedToLeave (x :: t) seq = true := by
  rw [askedToLeave_cons, h, Bool.or_true]

@[simp] theorem hooksGiven_cons :
    hooksGiven (x :: t) seq = hooksGiven t seq ++ x.hooksGiven seq := by
  simp [hooksGiven]

@[simp] theorem departures_cons :
    departures (x :: t) = departures t ++ x.departure?.toList := by
  unfold departures
  cases h : x.departure? <;> simp [h]

theorem call?_cons_of_command {x : Moment} (h : x.item.isCommand = true) :
    call? (x :: t) = some x := List.find?_cons_of_pos h

theorem call?_cons_of_not_command {x : Moment} (h : x.item.isCommand = false) :
    call? (x :: t) = call? t := List.find?_cons_of_neg (Bool.eq_false_iff.mp h)

@[simp] theorem departuresOf_cons : departuresOf (x :: t) seq =
    departuresOf t seq ++ x.departure?.toList.filter fun r => r.1.seq = seq := by
  simp [departuresOf]

end Cons

/-- An action is bound to the worker registered as `seq`. -/
def World.Binds (w : World) (id seq : Nat) : Prop := ∃ x key v,
  w.schedule.actions.get? id = some x ∧ x.binding = some key ∧ w.pool.worker? key = some v ∧
    v.seq = seq

namespace Moment

/-- At a moment an action is bound to the worker registered as `seq`. -/
def Assigns (x : Moment) (id seq : Nat) : Prop := ¬ x.world.Binds id seq ∧ x.after.Binds id seq

/-- At a moment the last action ends that is bound to the worker registered as `seq`, which was
asked to leave. -/
def EndsLast (x : Moment) (seq : Nat) : Prop := ∃ id ending key v u,
  x.deed = .conclude id ending ∧
  (x.world.pool.worker? key = some v ∧ v.seq = seq ∧ v.removing = true ∧
    ∀ j, v.reservations.contains j = true ↔ j = id) ∧
  x.after.pool.worker? key = some u ∧ u.seq = seq ∧ u.reservations.isEmpty = true

/-- Why the worker `v` leaves at a moment, after the moments `t`. -/
inductive LetsLeave (t : List Moment) (x : Moment) (v : Worker) : Prop where
  /-- It is asked to at this moment, and nothing is bound to it. -/
  | idle (hook : Option RemovalHook) (asked : x.request? = some (v, hook))
    (idle : v.reservations.isEmpty = true) : LetsLeave t x v
  /-- It is lost. -/
  | lost (key : WorkerKey) (deed : x.deed = .lose key)
    (live : x.world.pool.worker? key = some v) : LetsLeave t x v
  /-- It was asked to, and the call that is under way began with the end of the last action that
  was bound to it. -/
  | drained (z : Moment) (asked : askedToLeave t v.seq = true)
    (within : x.item.isCommand = false) (call : call? t = some z) (ends : z.EndsLast v.seq) :
    LetsLeave t x v

end Moment

/-! ## The course and the pool -/

/-- The pool `p` is what the moments `t` say. -/
structure Roster (t : List Moment) (p : Pool) : Prop where
  /-- No two workers have the same number. -/
  distinct : p.Distinct
  /-- Numbers are those of earlier registrations. -/
  numbered : ∀ {key v}, p.worker? key = some v → v.seq < p.nextSeq
  /-- Who accepts nothing was asked to leave. -/
  marked : ∀ {key v}, p.worker? key = some v → v.removing = askedToLeave t v.seq
  /-- The hooks of a worker were given to it. -/
  hooks : ∀ {key v}, p.worker? key = some v → v.hooks = hooksGiven t v.seq
  /-- Nothing happened yet to a worker that will be registered. -/
  fresh : ∀ {seq}, p.nextSeq ≤ seq →
    askedToLeave t seq = false ∧ hooksGiven t seq = [] ∧ departuresOf t seq = []
  /-- Who is there did not leave. -/
  present : ∀ {key v}, p.worker? key = some v → departuresOf t v.seq = []
  /-- Who is not there any more left once. -/
  past : ∀ {seq}, seq < p.nextSeq → (∀ {key v}, p.worker? key = some v → v.seq ≠ seq) →
    ∃ r, departuresOf t seq = [r]
  /-- What is recorded of a departure is what the worker had and who gave a hook. -/
  record : ∀ {v d}, (v, d) ∈ departures t →
    (∃ key rescues forced, d.removed = ⟨key, v.total, rescues, forced, !d.hooks.isEmpty⟩) ∧
      d.hooks = hooksGiven t v.seq

namespace Roster

variable {t : List Moment} {p q : Pool} {x : Moment} {items : List Item} {seq : Nat}

theorem start (h : p.workers = .empty) (hn : p.nextSeq = 0) : Roster [] p := by
  have hnone {key : WorkerKey} {v : Worker} : p.worker? key ≠ some v := by
    rw [Pool.worker?, h]
    exact fun hv => by cases hv
  exact ⟨fun hv => absurd hv hnone, fun hv => absurd hv hnone, fun hv => absurd hv hnone,
    fun hv => absurd hv hnone, fun _ => ⟨rfl, rfl, rfl⟩, fun hv => absurd hv hnone,
    fun hlt => by omega, fun hr => by cases hr⟩

/-- Who left is not there. -/
theorem not_registered (h : Roster t p) {v : Worker} {d : Pool.Departure}
    (hr : (v, d) ∈ departures t) {key : WorkerKey} {u : Worker} (hu : p.worker? key = some u) :
    u.seq ≠ v.seq := fun he => by
  have hmem : (v, d) ∈ departuresOf t u.seq := List.mem_filter.mpr ⟨hr, decide_eq_true he.symm⟩
  rw [h.present hu] at hmem
  cases hmem

/-- Nobody is asked to leave under a number that is not registered. -/
theorem asksToLeave_eq_false (hx : ∀ {key v}, x.world.pool.worker? key = some v → v.seq ≠ seq) :
    x.asksToLeave seq = false := by
  cases h : x.asksToLeave seq with
  | false => rfl
  | true =>
    obtain ⟨key, v, hv, he⟩ := Moment.exists_of_asksToLeave h
    exact absurd he (hx hv)

/-- Nobody leaves under a number that is not registered. -/
theorem departed_eq_nil (hs : Succeeds x q)
    (hx : ∀ {key v}, x.world.pool.worker? key = some v → v.seq ≠ seq) :
    (x.departure?.toList.filter fun r => r.1.seq = seq) = [] := by
  refine List.filter_eq_nil_iff.mpr fun r hr he => ?_
  obtain ⟨key, hv, -⟩ := hs.left (Option.mem_toList.mp hr)
  exact hx hv (of_decide_eq_true he)

/-- Nothing happens at a moment to a worker that will be registered later. -/
theorem fresh_step (h : Roster t x.world.pool) (hs : Succeeds x q)
    (hle : x.world.pool.nextSeq ≤ seq) : askedToLeave (x :: t) seq = false ∧
      hooksGiven (x :: t) seq = [] ∧ departuresOf (x :: t) seq = [] := by
  obtain ⟨hasked, hhooks, hdep⟩ := h.fresh hle
  have hunused {key : WorkerKey} {v : Worker} (hv : x.world.pool.worker? key = some v) :
      v.seq ≠ seq := by
    have hlt := h.numbered hv
    omega
  have hno := asksToLeave_eq_false hunused
  rw [askedToLeave_cons, hooksGiven_cons, departuresOf_cons, hasked, hhooks, hdep, hno,
    Moment.hooksGiven_of_not_asked hno, departed_eq_nil hs hunused]
  exact ⟨rfl, rfl, rfl⟩

/-- Who is there after a moment did not leave at it. -/
theorem present_step (h : Roster t x.world.pool) (hs : Succeeds x q) {key : WorkerKey} {u : Worker}
    (hu : q.worker? key = some u) : departuresOf (x :: t) u.seq = [] := by
  rcases hs.back hu with ⟨v, hv, hr⟩ | ⟨-, ha⟩
  · rw [departuresOf_cons, hr.seq, h.present hv, List.nil_append]
    -- whoever leaves is not there afterwards, so it is not this worker
    refine List.filter_eq_nil_iff.mpr fun r hr' he => ?_
    obtain ⟨k, hk, hnone, -⟩ := hs.left (Option.mem_toList.mp hr')
    rw [h.distinct hk hv (of_decide_eq_true he), hu] at hnone
    cases hnone
  · rw [ha.seq]
    exact (h.fresh_step hs (Nat.le_refl _)).2.2

/-- Who is not there after a moment left at it, or had left before. -/
theorem past_step (h : Roster t x.world.pool) (hs : Succeeds x q) (hlt : seq < q.nextSeq)
    (hgone : ∀ {key u}, q.worker? key = some u → u.seq ≠ seq) :
    ∃ r, departuresOf (x :: t) seq = [r] := by
  by_cases hin : ∃ key v, x.world.pool.worker? key = some v ∧ v.seq = seq
  · obtain ⟨key, v, hv, rfl⟩ := hin
    rcases hs.kept hv with ⟨u, hu, he⟩ | ⟨d, hd⟩
    · exact absurd he (hgone hu)
    · refine ⟨(v, d), ?_⟩
      rw [departuresOf_cons, h.present hv, hd]
      simp
  · have hno : ∀ {key v}, x.world.pool.worker? key = some v → v.seq ≠ seq :=
      fun {key v} hv he => hin ⟨key, v, hv, he⟩
    by_cases hold : seq < x.world.pool.nextSeq
    · rw [departuresOf_cons, departed_eq_nil hs hno, List.append_nil]
      exact h.past hold hno
    · obtain ⟨key, u, hu, he⟩ := hs.numbered (Nat.le_of_not_lt hold) hlt
      exact absurd he (hgone hu)

/-- The record of who leaves names what it had and who gave a hook. -/
theorem record_step (h : Roster t x.world.pool) (hs : Succeeds x q) {v : Worker}
    {d : Pool.Departure} (hr : (v, d) ∈ departures (x :: t)) :
    (∃ key rescues forced, d.removed = ⟨key, v.total, rescues, forced, !d.hooks.isEmpty⟩) ∧
      d.hooks = hooksGiven (x :: t) v.seq := by
  rw [departures_cons] at hr
  rcases List.mem_append.mp hr with hr | hr
  · have hno := asksToLeave_eq_false (x := x) (h.not_registered hr)
    rw [hooksGiven_cons, Moment.hooksGiven_of_not_asked hno, List.append_nil]
    exact h.record hr
  · obtain ⟨key, hv, -, hrecord, hhooks⟩ := hs.left (Option.mem_toList.mp hr)
    exact ⟨⟨key, hrecord⟩, by rw [hhooks, h.hooks hv, hooksGiven_cons]⟩

/-- What an item does to the workers is recorded. -/
theorem step (h : Roster t x.world.pool) (hc : Change x q items) : Roster (x :: t) q := by
  have hs := hc.succeeds h.distinct
  refine ⟨hc.distinct h.distinct h.numbered, fun {key u} hu => ?_, fun {key u} hu => ?_,
    fun {key u} hu => ?_, fun hle => h.fresh_step hs (Nat.le_trans hs.nextSeq hle),
    h.present_step hs, h.past_step hs, h.record_step hs⟩
  · rcases hs.back hu with ⟨v, hv, hr⟩ | ⟨-, ha⟩
    · exact hr.seq ▸ Nat.lt_of_lt_of_le (h.numbered hv) hs.nextSeq
    · exact ha.lt
  · rcases hs.back hu with ⟨v, hv, hr⟩ | ⟨-, ha⟩
    · rw [hr.removing, h.marked hv, hr.seq, askedToLeave_cons, Bool.or_comm]
    · rw [ha.removing, ha.seq, (h.fresh_step hs (Nat.le_refl _)).1]
  · rcases hs.back hu with ⟨v, hv, hr⟩ | ⟨-, ha⟩
    · rw [hr.hooks, h.hooks hv, hr.seq, hooksGiven_cons]
    · rw [ha.hooks, ha.seq, (h.fresh_step hs (Nat.le_refl _)).2.1]

/-- A worker that was asked to leave and is there after an item was there before. -/
theorem back_of_asked (h : Roster t x.world.pool) (hs : Succeeds x q)
    (hasked : askedToLeave t seq = true) {key : WorkerKey} {u : Worker}
    (hu : q.worker? key = some u) (hseq : u.seq = seq) :
    ∃ v, x.world.pool.worker? key = some v ∧ v.Remains x u ∧ v.seq = seq ∧ v.removing = true := by
  rcases hs.back hu with ⟨v, hv, hr⟩ | ⟨-, harr⟩
  · have hvseq : v.seq = seq := hr.seq.symm.trans hseq
    exact ⟨v, hv, hr, hvseq, (h.marked hv).trans (hvseq ▸ hasked)⟩
  · have hno := (h.fresh (Nat.le_refl _)).1
    rw [← harr.seq, hseq, hasked] at hno
    cases hno

/-- Whoever was registered is there and did not leave, or is not there and left once. -/
theorem once (h : Roster t p) (hlt : seq < p.nextSeq) :
    (∃ key v, p.worker? key = some v ∧ v.seq = seq) ∧ departuresOf t seq = [] ∨
      (∀ {key v}, p.worker? key = some v → v.seq ≠ seq) ∧ ∃ r, departuresOf t seq = [r] := by
  by_cases hin : ∃ key v, p.worker? key = some v ∧ v.seq = seq
  · obtain ⟨key, v, hv, rfl⟩ := hin
    exact .inl ⟨⟨key, v, hv, rfl⟩, h.present hv⟩
  · have hno : ∀ {key v}, p.worker? key = some v → v.seq ≠ seq :=
      fun {key v} hv he => hin ⟨key, v, hv, he⟩
    exact .inr ⟨hno, h.past hlt hno⟩

/-- Of every departure those are told who gave a hook. -/
theorem flatMap_told (h : Roster t p) : (departures t).flatMap (fun r => r.2.told) =
    (departures t).flatMap fun r => (hooksGiven t r.1.seq).map fun hook => (hook, r.2.removed) := by
  refine List.flatMap_congr fun r hr => ?_
  rw [← (h.record hr).2]
  rfl

end Roster

/-- Where nobody changes the pool behind the scheduler, the pool is what the moments say. -/
theorem Machine.Course.roster {rule : Conduct} {policy : Policy} {localNodes : List String}
    {withholds : Bool} {limit : Nat} {t : List Moment} {m : Machine} (hrule : rule.SparesPool)
    (h : Course rule (World.fresh policy localNodes withholds limit) t m) :
    Roster t m.world.pool := by
  induction h with
  | start => exact .start rfl rfl
  | ask _ _ _ ih => exact ih
  | answer _ _ _ ih => exact ih
  | item hbefore ih => exact ih.step (hbefore.inAgreement hrule).change

/-! ## The agenda -/

/-- What is told and who is to leave, in a run in which clients do not answer. -/
structure Draining (t : List Moment) (m : Machine) : Prop where
  /-- The pool is what the moments say. -/
  roster : Roster t m.world.pool
  /-- Who can leave is let leave. -/
  owed : ∀ {key v}, m.world.pool.worker? key = some v → v.isDrained = true →
    .retire key v.seq ∈ m.agenda
  /-- Who is let leave was asked to, and the call ended the last action that was bound to it. -/
  called : ∀ {key seq}, .retire key seq ∈ m.agenda →
    askedToLeave t seq = true ∧ ∃ z, call? t = some z ∧ z.EndsLast seq
  /-- Where a call begins nothing else is to be done. -/
  sole : ∀ {token c}, .obey token c ∈ m.agenda → m.agenda = [.obey token c]
  /-- After the last action ended that was bound to a worker that was asked to leave, nothing is
  bound to it. -/
  spent : ∀ {z seq}, z ∈ t → z.EndsLast seq → askedToLeave t seq = true ∧
    ∀ {key v}, m.world.pool.worker? key = some v → v.seq = seq → v.reservations.isEmpty = true
  /-- What hooks were told and are to be told is the records of those who left. -/
  told : (m.world.hookings ++ Item.hookings m.agenda).Perm
    ((departures t).flatMap fun r => r.2.told)

namespace Draining

open Machine

variable {t : List Moment} {w : World} {i : Item} {rest : List Item}

/-- Between calls nobody can leave. -/
theorem not_drained {m : Machine} (h : Draining t m) (hdone : m.agenda = []) {key : WorkerKey}
    {v : Worker} (hv : m.world.pool.worker? key = some v) : v.isDrained = false := by
  rw [← Bool.not_eq_true]
  intro hdrained
  have howed := h.owed hv hdrained
  rw [hdone] at howed
  cases howed

/-- Where an item lets a worker leave, it ends the last action that was bound to it. -/
theorem endsLast_of_owes (h : Roster t w.pool)
    (hc : Change ⟨w, i⟩ (w.carryOut i).1.pool (w.carryOut i).2) {key : WorkerKey} {seq : Nat}
    (hj : .retire key seq ∈ (w.carryOut i).2) :
    askedToLeave t seq = true ∧ i.isCommand = true ∧ Moment.EndsLast ⟨w, i⟩ seq := by
  obtain ⟨id, ending, v, v', hd, hv, hrelease, hv', hdrained, hseq⟩ := hc.releases_of_owes hj
  obtain ⟨need, hneed, rfl⟩ := Worker.release?_eq_some_iff.mp hrelease
  rw [Worker.isDrained, Bool.and_eq_true] at hdrained
  obtain ⟨hrem, hempty⟩ := hdrained
  have hcommand : i.isCommand = true := by
    have hby := Moment.doneBy_deed ⟨w, i⟩
    rw [hd] at hby
    cases ending <;> obtain ⟨token, hi⟩ := hby <;> exact congrArg Item.isCommand hi
  have hsole (j : Nat) : v.reservations.contains j = true ↔ j = id := by
    refine ⟨fun hj => ?_, fun hj => SortedMap.contains_iff.mpr ⟨need, hj ▸ hneed⟩⟩
    by_contra hne
    obtain ⟨n, hn⟩ := SortedMap.contains_iff.mp hj
    have hnone := SortedMap.isEmpty_iff_get?.mp hempty j
    rw [SortedMap.get?_erase_of_ne _ hne, hn] at hnone
    cases hnone
  refine ⟨?_, hcommand, id, ending, key, v, _, hd, ⟨hv, hseq, hrem, hsole⟩, hv', hseq, hempty⟩
  rw [← hseq]
  exact (h.marked hv).symm.trans hrem

/-- Who can leave after an item is let leave: the item that lets it leave is new or still there. -/
theorem owed_step (h : Draining t ⟨w, i :: rest⟩) (hag : InAgreement ⟨w, i :: rest⟩)
    {key : WorkerKey} {u : Worker} (hu : (w.carryOut i).1.pool.worker? key = some u)
    (hdrained : u.isDrained = true) : .retire key u.seq ∈ (w.carryOut i).2 ++ rest := by
  rcases hag.change.owed hu hdrained with hnew | ⟨v, hv, hseq, hdrained'⟩
  · exact List.mem_append_left _ hnew
  · rw [← hseq]
    rcases List.mem_cons.mp (h.owed hv hdrained') with rfl | hold
    · -- it leaves now, and is not there afterwards
      obtain ⟨d, hd⟩ := Moment.departure?_of_retire (x := ⟨w, .retire key v.seq⟩) rfl hv
      obtain ⟨k, hk, hnone, -⟩ := (hag.change.succeeds h.roster.distinct).left hd
      rw [h.roster.distinct hk hv rfl, hu] at hnone
      cases hnone
    · exact List.mem_append_right _ hold

/-- Who is let leave after an item was asked to, and the call ended the last action that was bound
to it. -/
theorem called_step (h : Draining t ⟨w, i :: rest⟩) (hag : InAgreement ⟨w, i :: rest⟩)
    {key : WorkerKey} {seq : Nat} (hj : .retire key seq ∈ (w.carryOut i).2 ++ rest) :
    askedToLeave (⟨w, i⟩ :: t) seq = true ∧ ∃ z, call? (⟨w, i⟩ :: t) = some z ∧ z.EndsLast seq := by
  rcases List.mem_append.mp hj with hnew | hold
  · obtain ⟨hasked, hcommand, hends⟩ := endsLast_of_owes h.roster hag.change hnew
    exact ⟨askedToLeave_later hasked, _, call?_cons_of_command t hcommand, hends⟩
  · obtain ⟨hasked, z, hcall, hends⟩ := h.called (List.mem_cons_of_mem i hold)
    have hcommand : i.isCommand = false := by
      cases i with
      | obey token c =>
        obtain rfl := (List.cons.inj (h.sole List.mem_cons_self)).2
        cases hold
      | _ => rfl
    exact ⟨askedToLeave_later hasked, z, (call?_cons_of_not_command t hcommand).trans hcall, hends⟩

/-- Nothing is bound any more to a worker for which the last action ended. -/
theorem spent_step (h : Draining t ⟨w, i :: rest⟩) (hag : InAgreement ⟨w, i :: rest⟩) {z : Moment}
    {seq : Nat} (hz : z ∈ ⟨w, i⟩ :: t) (hends : z.EndsLast seq) :
    askedToLeave (⟨w, i⟩ :: t) seq = true ∧
      ∀ {key u}, (w.carryOut i).1.pool.worker? key = some u → u.seq = seq →
        u.reservations.isEmpty = true := by
  rcases List.mem_cons.mp hz with rfl | hz
  · obtain ⟨id, ending, key, v, u, hd, ⟨hv, hseq, hrem, -⟩, hu, hseq', hempty⟩ := hends
    have hasked : askedToLeave t seq = true := hseq ▸ (h.roster.marked hv).symm.trans hrem
    refine ⟨askedToLeave_later hasked, fun {k u'} hu' he => ?_⟩
    have hu : (w.carryOut i).1.pool.worker? key = some u := hu
    rw [(h.roster.step hag.change).distinct hu' hu (he.trans hseq'.symm), hu] at hu'
    exact Option.some_inj.mp hu' ▸ hempty
  · obtain ⟨hasked, hempty⟩ := h.spent hz hends
    refine ⟨askedToLeave_later hasked, fun {k u} hu he => ?_⟩
    refine SortedMap.isEmpty_iff_get?.mpr fun id => ?_
    obtain ⟨v, hv, hr, hseq, hrem⟩ :=
      h.roster.back_of_asked (hag.change.succeeds h.roster.distinct) hasked hu he
    cases hn : u.reservations.get? id with
    | none => rfl
    | some need =>
      have hold := hr.reservations hrem hn
      rw [SortedMap.isEmpty_iff_get?.mp (hempty hv hseq) id] at hold
      cases hold

/-- What hooks are told and are to be told is the records of those who left. -/
theorem told_step (h : Draining t ⟨w, i :: rest⟩) (hag : InAgreement ⟨w, i :: rest⟩) :
    ((w.carryOut i).1.hookings ++ Item.hookings ((w.carryOut i).2 ++ rest)).Perm
      ((departures (⟨w, i⟩ :: t)).flatMap fun r => r.2.told) := by
  have htold := h.told
  rw [Item.hookings_cons, ← List.append_assoc] at htold
  rw [departures_cons, List.flatMap_append, ← hag.change.hookings, World.hookings_carryOut,
    Item.hookings_append]
  refine List.Perm.trans ?_ (htold.append_right _)
  rw [List.append_assoc _ (Item.hookings rest)]
  exact List.perm_append_comm.append_left _

theorem step (h : Draining t ⟨w, i :: rest⟩) (hag : InAgreement ⟨w, i :: rest⟩) :
    Draining (⟨w, i⟩ :: t) (Machine.step ⟨w, i :: rest⟩) where
  roster := h.roster.step hag.change
  owed := h.owed_step hag
  called := h.called_step hag
  sole {token c} hj := by
    rcases List.mem_append.mp hj with hj | hj
    · exact absurd hj (hag.turns.not_obey token c)
    · obtain rfl := (List.cons.inj (h.sole (List.mem_cons_of_mem i hj))).2
      cases hj
  spent := h.spent_step hag
  told := h.told_step hag

/-- Along every course in which clients do not answer, courses and pools say the same of workers
that leave, and what is owed to them is on the agenda. -/
theorem of_course {asks : Command → Prop} (hspares : (Conduct.quiet asks).SparesPool)
    {policy : Policy} {localNodes : List String} {withholds : Bool} {limit : Nat} {m : Machine}
    (h : Course (.quiet asks) (World.fresh policy localNodes withholds limit) t m) :
    Draining t m := by
  induction h with
  | start =>
    refine ⟨.start rfl rfl, fun {key v} hv => ?_, fun {key seq} hj => ?_, fun {token c} hj => ?_,
      fun {z seq} hz => ?_, .refl _⟩
    · cases hv
    · cases hj
    · cases hj
    · cases hz
  | @ask t w c token _ _ ih =>
    refine ⟨ih.roster, fun hv hd => ?_, fun hj => ?_, fun hj => ?_, ih.spent, ih.told⟩
    · cases ih.owed hv hd
    · cases List.mem_singleton.mp hj
    · exact congrArg (fun j => [j]) (List.mem_singleton.mp hj).symm
  | item hcourse ih => exact ih.step (hcourse.inAgreement hspares)
  | @answer t w p rest given _ hg ih =>
    obtain rfl : given = [] := List.eq_nil_iff_forall_not_mem.mpr fun g hmem => hg g hmem
    refine ⟨ih.roster, fun hv hd => ?_, fun hj => ih.called (List.mem_cons_of_mem _ hj),
      fun hj => ?_, ih.spent, ih.told⟩
    · rcases List.mem_cons.mp (ih.owed hv hd) with hj | hj
      · cases hj
      · exact hj
    · cases (ih.sole (List.mem_cons_of_mem _ hj))

end Draining

/-! ## What is bound to whom -/

namespace World

variable {w : World} {i : Item}

/-- Who is live after a deed was live before, or is accepted by it. -/
theorem Moves.live_back {d : Deed} {s : Schedule} (h : w.Moves d s) {id : Nat} {y : Entry}
    (hy : s.actions.get? id = some y) :
    (∃ x, w.schedule.actions.get? id = some x) ∨ id = w.schedule.nextId := by
  rcases h.wakes_or_accepts with ⟨name, -, rfl⟩ | ⟨task, monitor, -, rfl⟩ | ⟨hw, hs⟩
  · obtain ⟨x, hx, -⟩ := (w.schedule.wake_back name).1 hy
    exact .inl ⟨x, hx⟩
  · rcases w.schedule.accept_back w.catalog task monitor hy with ⟨-, hx, -⟩ | ⟨hid, -⟩
    · exact .inl ⟨y, hx⟩
    · exact .inr hid
  · obtain ⟨x, hx, -⟩ := (h.sustains hw hs).back hy
    exact .inl ⟨x, hx⟩

end World

/-- Nothing is bound to a worker after it was asked to leave. -/
theorem Draining.not_assigns {t : List Moment} {w : World} {i : Item} {rest : List Item}
    (h : Draining t ⟨w, i :: rest⟩) (hag : Machine.InAgreement ⟨w, i :: rest⟩) {seq : Nat}
    (hasked : askedToLeave t seq = true) (id : Nat) : ¬ Moment.Assigns ⟨w, i⟩ id seq := by
  rintro ⟨hbefore, y, key, u, hy, hbinding, hu, hseq⟩
  have hroster := h.roster
  have hafter : Agrees (w.carryOut i).1.schedule (w.carryOut i).1.pool ((w.carryOut i).2 ++ rest) :=
    hag.step.agrees
  have hu : (w.carryOut i).1.pool.worker? key = some u := hu
  obtain ⟨v, hv, hr, hvseq, hrem⟩ :=
    hroster.back_of_asked (hag.change.succeeds hroster.distinct) hasked hu hseq
  have hbound {x : Standing} (hx : w.schedule.standing? id = some x) (hb : x.binding = some key) :
      w.Binds id seq := by
    obtain ⟨e, he, rfl⟩ := Schedule.standing?_eq_some_iff.mp hx
    exact ⟨e, key, v, he, hb, hv, hvseq⟩
  have hstanding : (w.carryOut i).1.schedule.standing? id = some y.standing :=
    Schedule.standing?_eq_some_iff.mpr ⟨y, hy, rfl⟩
  rcases hafter.bound hstanding hbinding with ⟨u', need, hu', hneed⟩ | ⟨ids, hj, hid⟩
  · -- what is reserved for it was reserved before
    rw [hu] at hu'
    obtain rfl := Option.some_inj.mp hu'
    obtain ⟨x, hx, hb, -⟩ := hag.agrees.held hv (hr.reservations hrem hneed)
    exact hbefore (hbound hx hb)
  · rcases List.mem_append.mp hj with hj | hj
    · have hgone := hag.turns.gone_of_failBound hj
      rw [hu] at hgone
      cases hgone
    · -- it was to fail before already
      obtain ⟨hold, -, hlost⟩ := hag.agrees.lost (List.mem_cons_of_mem i hj) hid
      rcases (w.does_carryOut i).moves.live_back hy with ⟨x, hx⟩ | hnew
      · have hst := Schedule.standing?_eq_some_iff.mpr ⟨x, hx, rfl⟩
        exact hbefore (hbound hst (hlost hst))
      · exact absurd hnew (Nat.ne_of_lt hold)

/-! ## How workers leave -/

namespace Machine

/-- How workers leave in the moments `t` that led to the machine `m`. -/
structure DrainProtocol (t : List Moment) (m : Machine) : Prop where
  /-- Once a worker was asked to leave, no action is bound to it, whatever is offered to it. -/
  refused : ∀ {t₁ x t₀ seq}, t = t₁ ++ x :: t₀ → askedToLeave t₀ seq = true →
    ∀ id, ¬ x.Assigns id seq
  /-- A worker that is asked to leave and has nothing bound to it leaves at that moment. -/
  atOnce : ∀ {x v hook}, x ∈ t → x.request? = some (v, hook) → v.reservations.isEmpty = true →
    ∃ d, x.departure? = some (v, d)
  /-- Whoever leaves is taken out of the pool, and has been asked to with nothing bound to it, or is
  lost, or is drained in the call that ended the last action that was bound to it. -/
  leaves : ∀ {t₁ x t₀ v d}, t = t₁ ++ x :: t₀ → x.departure? = some (v, d) →
    x.world.pool.worker? d.removed.key = some v ∧
      x.after.pool.worker? d.removed.key = none ∧ x.LetsLeave t₀ v
  /-- When the call has returned that ended the last action that was bound to a worker that was
  asked to leave, the worker is gone. -/
  ended : ∀ {z seq}, z ∈ t → z.EndsLast seq → m.agenda = [] →
    ∀ {key v}, m.world.pool.worker? key = some v → v.seq ≠ seq
  /-- A worker accepts nothing exactly if it was asked to leave. -/
  marked : ∀ {key v}, m.world.pool.worker? key = some v → v.removing = askedToLeave t v.seq
  /-- Between calls something is bound to every worker that was asked to leave and is there. -/
  holding : ∀ {key v}, m.agenda = [] → m.world.pool.worker? key = some v → v.removing = true →
    v.reservations.isEmpty = false
  /-- Whoever was registered is there and did not leave, or is not there and left once. -/
  once : ∀ {seq}, seq < m.world.pool.nextSeq →
    (∃ key v, m.world.pool.worker? key = some v ∧ v.seq = seq) ∧ departuresOf t seq = [] ∨
      (∀ {key v}, m.world.pool.worker? key = some v → v.seq ≠ seq) ∧
        ∃ r, departuresOf t seq = [r]
  /-- The record of a departure says what the worker's total was, and that hooks see to it exactly
  if a hook was given to the worker. -/
  record : ∀ {v d}, (v, d) ∈ departures t → d.removed.reclaimed = v.total ∧
    (d.removed.claimed = true ↔ hooksGiven t v.seq ≠ [])
  /-- Of those who left, every hook that was given was told their record once or will be before the
  call returns, and nobody was told anything else. -/
  told : (m.world.hookings ++ Item.hookings m.agenda).Perm ((departures t).flatMap fun r =>
    (hooksGiven t r.1.seq).map fun hook => (hook, r.2.removed))

variable {asks : Command → Prop} {policy : Policy} {localNodes : List String} {withholds : Bool}
  {limit : Nat} {t : List Moment} {m : Machine}

/-- Who leaves is taken out of the pool, for one of three reasons. -/
theorem letsLeave_of_departure? {w : World} {i : Item} {rest : List Item}
    (h : Draining t ⟨w, i :: rest⟩) (hag : InAgreement ⟨w, i :: rest⟩) {v : Worker}
    {d : Pool.Departure} (hd : Moment.departure? ⟨w, i⟩ = some (v, d)) :
    w.pool.worker? d.removed.key = some v ∧ (w.carryOut i).1.pool.worker? d.removed.key = none ∧
      Moment.LetsLeave t ⟨w, i⟩ v := by
  have hc : Change ⟨w, i⟩ (w.carryOut i).1.pool (w.carryOut i).2 := hag.change
  cases hc with
  | carries _ unasked | registers _ _ _ _ _ _ _ unasked =>
    rw [unasked.departure] at hd
    cases hd
  | releases deed _ _ _ _ _ _ =>
    rw [Moment.departure?_of_deed deed rfl] at hd
    cases hd
  | drains _ _ _ departure _ _ _ =>
    rw [departure] at hd
    cases hd
  | @leaves key v' d' departure live why record _ pool _ _ _ =>
    rw [departure] at hd
    cases hd
    obtain ⟨rescues, forced, hrecord⟩ := record
    have hkey : d.removed.key = key := by rw [hrecord]
    rw [hkey]
    refine ⟨live, (Pool.worker?_of_erase pool key).trans (if_pos rfl), ?_⟩
    rcases why with ⟨hook, hremove, hidle⟩ | hlose | hretire
    · exact .idle hook (Moment.request?_of_remove hremove live) hidle
    · exact .lost key hlose live
    · have hby := Moment.doneBy_deed ⟨w, i⟩
      rw [hretire] at hby
      obtain rfl : i = .retire key v.seq := hby
      obtain ⟨hasked, z, hcall, hends⟩ := h.called List.mem_cons_self
      exact .drained z hasked rfl hcall hends

/-- However the scheduler, the agent and the catalog are used, if clients only listen, then workers
leave as they were asked to: a worker that was asked to leave is given nothing more, leaves in the
call in which nothing is bound to it any more, and every hook that was given is then told its
record, once. -/
theorem Course.drainProtocol (hspares : ∀ {c}, asks c → c.surface ≠ .pool)
    (h : Course (.quiet asks) (World.fresh policy localNodes withholds limit) t m) :
    DrainProtocol t m := by
  have hrule : (Conduct.quiet asks).SparesPool := ⟨hspares, fun hc => hc.elim⟩
  have hnow := Draining.of_course hrule h
  have hroster := hnow.roster
  refine ⟨fun ht hasked => ?_, fun _ hrequest hidle => Moment.departure?_of_request? hrequest hidle,
    fun ht hd => ?_, fun hz hends hdone key v hv he => ?_, hroster.marked,
    fun hdone hv hrem => ?_, hroster.once, fun {v d} hr => ?_, hroster.flatMap_told ▸ hnow.told⟩
  · subst ht
    obtain ⟨rest, hbefore⟩ := h.before
    exact (Draining.of_course hrule hbefore).not_assigns (hbefore.inAgreement hrule) hasked
  · subst ht
    obtain ⟨rest, hbefore⟩ := h.before
    exact letsLeave_of_departure? (Draining.of_course hrule hbefore) (hbefore.inAgreement hrule) hd
  · obtain ⟨hasked, hempty⟩ := hnow.spent hz hends
    have hdrained : v.isDrained = true :=
      Bool.and_eq_true_iff.mpr ⟨(hroster.marked hv).trans (he ▸ hasked), hempty hv he⟩
    rw [hnow.not_drained hdone hv] at hdrained
    cases hdrained
  · have hstays := hnow.not_drained hdone hv
    rwa [Worker.isDrained, hrem, Bool.true_and] at hstays
  · obtain ⟨⟨key, rescues, forced, hrecord⟩, hhooks⟩ := hroster.record hr
    rw [hrecord, hhooks]
    refine ⟨rfl, ?_⟩
    cases hooksGiven t v.seq <;> simp

/-! ### A worker that drains while more is offered to it -/

/-- A worker is registered. -/
def hiring : Machine :=
  asked (.fresh .fifo [] false 8) 0 (.addWorker (.permanent "n") (.cpus 1) default)

/-- A task is bound to it. -/
def engaging : Machine :=
  asked (hiring.advance 5).world 1 (.submit (.single (.cpus 1) "h") .silent)

/-- The worker is asked to leave, with a hook. -/
def dismissing : Machine :=
  asked (engaging.advance 8).world 2 (.removeWorker (.permanent "n") (some (.caller "a")))

/-- More is offered to it. -/
def enlarging : Machine :=
  asked (dismissing.advance 2).world 3 (.addWorker (.permanent "n") (.cpus 1) default)

/-- A second task is submitted. -/
def insisting : Machine :=
  asked (enlarging.advance 5).world 4 (.submit (.single (.cpus 1) "h") .silent)

/-- The first task is done. -/
def retiring : Machine := asked (insisting.advance 8).world 5 (.complete 1 [])

/-- The moments until all calls have returned. -/
def retiringMoments : List Moment :=
  moments 10 retiring ++ (moments 8 insisting ++ (moments 5 enlarging ++ (moments 2 dismissing ++
    (moments 8 engaging ++ (moments 5 hiring ++ [])))))

theorem course_retiring :
    Course (.quiet fun c => c.surface = .scheduler) (.fresh .fifo [] false 8) retiringMoments
      ⟨(retiring.advance 10).world, []⟩ :=
  (((((Course.start.call 0 5 (show _ = _ from rfl) (by decide +kernel)).call 1 8
    (show _ = _ from rfl) (by decide +kernel)).call 2 2 (show _ = _ from rfl)
    (by decide +kernel)).call 3 5 (show _ = _ from rfl) (by decide +kernel)).call 4 8
    (show _ = _ from rfl) (by decide +kernel)).call 5 10 (show _ = _ from rfl) (by decide +kernel)

/-- The second task is not bound to it, it leaves when the first is done, and its hook is told. -/
theorem drainProtocol_retiring :
    DrainProtocol retiringMoments ⟨(retiring.advance 10).world, []⟩ ∧
      askedToLeave retiringMoments 0 = true ∧
      (∃ r, departuresOf retiringMoments 0 = [r]) ∧
      (retiring.advance 10).world.schedule.ready.toList = [2] ∧
      (retiring.advance 10).world.hookings = [(.caller "a",
        ⟨.permanent "n", (Capacity.cpus 1).merge (.cpus 1), [], false, true⟩)] := by
  have hprotocol := Course.drainProtocol
    (fun {c} (hc : c.surface = .scheduler) hp => by rw [hc] at hp; cases hp) course_retiring
  have hgone : (retiring.advance 10).world.pool.workers = .empty := by decide +kernel
  have hnumbered : 0 < (retiring.advance 10).world.pool.nextSeq := by decide +kernel
  refine ⟨hprotocol, by decide +kernel, ?_, by decide +kernel, by decide +kernel⟩
  rcases hprotocol.once hnumbered with ⟨⟨key, v, hv, -⟩, -⟩ | ⟨-, honce⟩
  · have hv : (retiring.advance 10).world.pool.worker? key = some v := hv
    rw [Pool.worker?, hgone] at hv
    cases hv
  · exact honce

end Machine

end TaskGrid
