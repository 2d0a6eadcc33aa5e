import Mathlib.Data.List.Perm.Subperm
import TaskGrid.Proofs.Naive

/-!
# What the policies bind next

A policy decides about action, worker and way at once: it gives each candidate a list of numbers,
some of them negated, and what the numbers leave open is decided by the identifier of the action,
the number of the worker and the position of the way.  Whoever waits for a worker wants to know
something simpler: which action is next, where it goes, and how it is carried out there.

## The argument

The best candidate outranks everything else that fits.  Under `Policy.fifo` and
`Policy.loadBalancing` the numbers of a candidate that depend on its worker come after all that
tell actions apart, so the best candidate has the first of the actions that fit anywhere, of the
workers on which this action fits the first, and of the ways that fit there the first
(`Candidate.Staged`).  Under `Policy.dataLocality` the worker counts before the identifier of the
action does, and actions and workers are chosen in pairs (`Candidate.Paired`).

Numbers are cut off at `Policy.fieldLimit`, beyond which the order would be lost.  Workers never
come near it: what is bound to a worker has an identifier, and a ready action has one more.

* `Action.Precedes`, `Action.Outweighs`, `WorkerView.Earlier`, `WorkerView.Idler`,
  `Policy.Closer`: the orders.
* `InTurn`: bindings that are made one after another by a rule.
* `Machine.Run.bindsInTurn`: the rule of each policy, in every run.
-/

namespace TaskGrid

/-! ## Orders -/

namespace Action

/-- An action is more urgent than another, or just as urgent and submitted earlier. -/
def Precedes (a b : Action) : Prop :=
  b.task.priority < a.task.priority ∨ a.task.priority = b.task.priority ∧
    (a.sequence < b.sequence ∨ a.sequence = b.sequence ∧ a.id < b.id)

/-- An action is more urgent than another, or just as urgent and more so within its group, or that
is the same too and it has the lower identifier. -/
def Outweighs (a b : Action) : Prop :=
  b.task.priority < a.task.priority ∨ a.task.priority = b.task.priority ∧
    (b.task.groupPriority < a.task.groupPriority ∨
      a.task.groupPriority = b.task.groupPriority ∧ a.id < b.id)

variable {a b : Action}

instance : Std.Asymm Precedes :=
  ⟨fun a b => by unfold Precedes; omega⟩

instance : Std.Asymm Outweighs :=
  ⟨fun a b => by unfold Outweighs; omega⟩

theorem Precedes.urgent (h : a.Precedes b) : b.task.priority ≤ a.task.priority := by
  unfold Precedes at h
  omega

theorem Outweighs.urgent (h : a.Outweighs b) : b.task.priority ≤ a.task.priority := by
  unfold Outweighs at h
  omega

end Action

namespace WorkerView

/-- A worker registered before another. -/
def Earlier (v u : WorkerView) : Prop := v.seq < u.seq

/-- Fewer actions are bound to a worker than to another, or as many, and it registered earlier. -/
def Idler (v u : WorkerView) : Prop :=
  v.queueDepth < u.queueDepth ∨ v.queueDepth = u.queueDepth ∧ v.seq < u.seq

instance : Std.Asymm Earlier :=
  ⟨fun v u => by unfold Earlier; omega⟩

instance : Std.Asymm Idler :=
  ⟨fun v u => by unfold Idler; omega⟩

end WorkerView

namespace Policy

/-- An action on a worker comes before another one on another worker: it is more urgent, or just as
urgent and reads more data that are at hand there, or that is the same too and it has the lower
identifier, or it is the same action on a worker that registered earlier. -/
def Closer (c : Catalog) (x y : Action × WorkerView) : Prop :=
  y.1.task.priority < x.1.task.priority ∨ x.1.task.priority = y.1.task.priority ∧
    (resident c y.1 y.2.host < resident c x.1 x.2.host ∨
      resident c x.1 x.2.host = resident c y.1 y.2.host ∧
        (x.1.id < y.1.id ∨ x.1.id = y.1.id ∧ x.2.seq < y.2.seq))

variable {c : Catalog} {x y : Action × WorkerView}

instance : Std.Asymm (Closer c) :=
  ⟨fun x y => by unfold Closer; omega⟩

theorem Closer.urgent (h : Closer c x y) : y.1.task.priority ≤ x.1.task.priority := by
  unfold Closer at h
  omega

/-- A count below the limit is its own field. -/
theorem field_of_lt {n : Nat} (h : n < 2 ^ 63) : field n = n := by
  unfold field fieldLimit
  omega

theorem resident_le (c : Catalog) (a : Action) (host : String) :
    resident c a host ≤ a.task.dependencies.length :=
  List.countP_le_length

end Policy

/-! ## Choices in stages -/

namespace Candidate

/-- Of all that fits, the action comes before the other actions, of all workers on which it fits
the worker comes before the others, and of all ways that fit there the way comes first. -/
structure Staged (ahead : Action → Action → Prop) (nearer : WorkerView → WorkerView → Prop)
    (s : Schedule) (p : Pool) (x : Candidate) : Prop where
  /-- It fits. -/
  fits : x.Fits s p
  /-- The action comes before every other action that fits somewhere. -/
  action : ∀ {y : Candidate}, y.Fits s p → y.action ≠ x.action → ahead x.action y.action
  /-- The worker comes before every other worker on which the action fits. -/
  worker : ∀ {y : Candidate}, y.Fits s p → y.action = x.action → y.view ≠ x.view →
    nearer x.view y.view
  /-- No earlier way fits there. -/
  way : ∀ {y : Candidate}, y.Fits s p → y.action = x.action → y.view = x.view →
    x.index ≤ y.index

/-- Of all that fits, the action and the worker come before all others, and of all ways that fit
there the way comes first. -/
structure Paired (closer : Action × WorkerView → Action × WorkerView → Prop) (s : Schedule)
    (p : Pool) (x : Candidate) : Prop where
  /-- It fits. -/
  fits : x.Fits s p
  /-- The pair comes before every other pair that fits. -/
  pair : ∀ {y : Candidate}, y.Fits s p → (y.action, y.view) ≠ (x.action, x.view) →
    closer (x.action, x.view) (y.action, y.view)
  /-- No earlier way fits there. -/
  way : ∀ {y : Candidate}, y.Fits s p → (y.action, y.view) = (x.action, x.view) →
    x.index ≤ y.index

/-- Nothing that fits is more urgent. -/
structure Urgent (s : Schedule) (p : Pool) (x : Candidate) : Prop where
  /-- It fits. -/
  fits : x.Fits s p
  /-- No action that fits somewhere has a greater priority. -/
  urgent : ∀ {y : Candidate}, y.Fits s p → y.action.task.priority ≤ x.action.task.priority

variable {ahead : Action → Action → Prop} {nearer : WorkerView → WorkerView → Prop}
  {closer : Action × WorkerView → Action × WorkerView → Prop} {s : Schedule} {p : Pool}
  {x y : Candidate} {policy : Policy} {c : Catalog}

/-- There is one choice in stages at most. -/
theorem Staged.unique [Std.Asymm ahead] [Std.Asymm nearer] (hx : x.Staged ahead nearer s p)
    (hy : y.Staged ahead nearer s p) : x = y := by
  have haction : x.action = y.action := by
    by_contra hne
    exact Std.Asymm.asymm _ _ (hx.action hy.fits (Ne.symm hne)) (hy.action hx.fits hne)
  have hview : x.view = y.view := by
    by_contra hne
    exact Std.Asymm.asymm _ _ (hx.worker hy.fits haction.symm (Ne.symm hne))
      (hy.worker hx.fits haction hne)
  exact hx.fits.ext hy.fits haction hview
    (Nat.le_antisymm (hx.way hy.fits haction.symm hview.symm) (hy.way hx.fits haction hview))

/-- There is one choice of a pair at most. -/
theorem Paired.unique [Std.Asymm closer] (hx : x.Paired closer s p) (hy : y.Paired closer s p) :
    x = y := by
  have hpair : (x.action, x.view) = (y.action, y.view) := by
    by_contra hne
    exact Std.Asymm.asymm _ _ (hx.pair hy.fits (Ne.symm hne)) (hy.pair hx.fits hne)
  obtain ⟨haction, hview⟩ := Prod.mk.inj hpair
  exact hx.fits.ext hy.fits haction hview
    (Nat.le_antisymm (hx.way hy.fits hpair.symm) (hy.way hx.fits hpair))

theorem Staged.urgent (h : x.Staged ahead nearer s p)
    (hahead : ∀ {a b}, ahead a b → b.task.priority ≤ a.task.priority) : x.Urgent s p := by
  refine ⟨h.fits, fun {y} hy => ?_⟩
  by_cases hne : y.action = x.action
  · exact Int.le_of_eq (congrArg (·.task.priority) hne)
  · exact hahead (h.action hy hne)

theorem Paired.urgent (h : x.Paired closer s p)
    (hcloser : ∀ {a b}, closer a b → b.1.task.priority ≤ a.1.task.priority) : x.Urgent s p := by
  refine ⟨h.fits, fun {y} hy => ?_⟩
  by_cases hne : (y.action, y.view) = (x.action, x.view)
  · exact Int.le_of_eq (congrArg (·.1.task.priority) hne)
  · exact hcloser (h.pair hy hne)

/-- Where outranking decides about the action first and then about the worker, the best candidate is
the choice in stages. -/
theorem Best.staged [Std.Asymm ahead] [Std.Asymm nearer] (ho : Covers s p)
    (h : x.Best policy c s p)
    (hsplit : ∀ {y : Candidate}, y.Fits s p → x.Outranks policy c y →
      ahead x.action y.action ∨ x.action.id = y.action.id ∧
        (nearer x.view y.view ∨ x.view.seq = y.view.seq ∧ x.index < y.index)) :
    x.Staged ahead nearer s p where
  fits := h.fits
  action {y} hy hne := by
    rcases hsplit hy (h.outranks y hy fun hyx => hne (hyx ▸ rfl)) with hlt | ⟨hid, -⟩
    · exact hlt
    · exact absurd (hy.action_eq h.fits hid.symm) hne
  worker {y} hy haction hne := by
    rcases hsplit hy (h.outranks y hy fun hyx => hne (hyx ▸ rfl)) with hlt | ⟨-, hlt | ⟨hseq, -⟩⟩
    · rw [haction] at hlt
      exact absurd hlt (Std.Irrefl.irrefl _)
    · exact hlt
    · exact absurd (hy.view_eq ho h.fits hseq.symm) hne
  way {y} hy haction hview := by
    by_cases hyx : y = x
    · exact Nat.le_of_eq (congrArg index hyx.symm)
    · rcases hsplit hy (h.outranks y hy hyx) with hlt | ⟨-, hlt | ⟨-, hlt⟩⟩
      · rw [haction] at hlt
        exact absurd hlt (Std.Irrefl.irrefl _)
      · rw [hview] at hlt
        exact absurd hlt (Std.Irrefl.irrefl _)
      · exact Nat.le_of_lt hlt

/-- Where outranking decides about the action and the worker together, the best candidate is the
choice of a pair. -/
theorem Best.paired [Std.Asymm closer] (ho : Covers s p) (h : x.Best policy c s p)
    (hsplit : ∀ {y : Candidate}, y.Fits s p → x.Outranks policy c y →
      closer (x.action, x.view) (y.action, y.view) ∨
        x.action.id = y.action.id ∧ x.view.seq = y.view.seq ∧ x.index < y.index) :
    x.Paired closer s p where
  fits := h.fits
  pair {y} hy hne := by
    rcases hsplit hy (h.outranks y hy fun hyx => hne (hyx ▸ rfl)) with hlt | ⟨hid, hseq, -⟩
    · exact hlt
    · refine absurd (Prod.ext ?_ ?_) hne
      · exact hy.action_eq h.fits hid.symm
      · exact hy.view_eq ho h.fits hseq.symm
  way {y} hy hpair := by
    by_cases hyx : y = x
    · exact Nat.le_of_eq (congrArg index hyx.symm)
    · rcases hsplit hy (h.outranks y hy hyx) with hlt | ⟨-, -, hlt⟩
      · rw [hpair] at hlt
        exact absurd hlt (Std.Irrefl.irrefl _)
      · exact Nat.le_of_lt hlt

end Candidate

/-! ## Numbers that are not cut off -/

/-- Identifiers and places in the order of submissions are below `2 ^ 63`, and so is the number of
data that an action reads, since a list of them has to be kept in memory. -/
structure Schedule.Modest (s : Schedule) : Prop where
  /-- No identifier beyond the bound was handed out. -/
  ids : s.nextId ≤ 2 ^ 63
  /-- Live actions were submitted before the bound was reached. -/
  sequences : ∀ {id x}, s.standing? id = some x → x.action.sequence < 2 ^ 63
  /-- Live actions read fewer data. -/
  reads : ∀ {id x}, s.standing? id = some x → x.action.task.dependencies.length < 2 ^ 63

/-- Fewer actions are bound to a worker than there are identifiers, as long as an action is
ready. -/
theorem Covers.size_reservations_lt {s : Schedule} {p : Pool} (h : Covers s p) {id : Nat}
    (hid : id ∈ s.ready) {key : WorkerKey} {w : Worker} (hw : p.worker? key = some w) :
    w.reservations.size < s.nextId := by
  have hfresh : id ∉ w.reservations.keys := fun hmem => by
    rw [SortedMap.mem_keys_iff, SortedMap.contains_iff] at hmem
    obtain ⟨need, hneed⟩ := hmem
    rw [h.unheld hid hw] at hneed
    cases hneed
  have hnodup : (id :: w.reservations.keys).Nodup :=
    List.nodup_cons.mpr ⟨hfresh, w.reservations.nodup_keys⟩
  have hold : id :: w.reservations.keys ⊆ List.range s.nextId := fun i hi => by
    rw [List.mem_range]
    rcases List.mem_cons.mp hi with rfl | hmem
    · obtain ⟨x, hx, -⟩ := h.sound.ready_iff.mp hid
      exact h.sound.old hx
    · obtain ⟨need, hneed⟩ := SortedMap.contains_iff.mp (SortedMap.mem_keys_iff.mp hmem)
      exact (h.held hw hneed).1
  have hlength := (hnodup.subperm hold).length_le
  rw [List.length_range, List.length_cons, SortedMap.keys, List.length_map] at hlength
  exact hlength

namespace Candidate.Fits

variable {s : Schedule} {p : Pool} {x : Candidate}

theorem id_lt (ho : Covers s p) (hm : s.Modest) (h : x.Fits s p) : x.action.id < 2 ^ 63 := by
  obtain ⟨y, hy, -⟩ := h.ready
  exact Nat.lt_of_lt_of_le (ho.sound.old hy) hm.ids

theorem sequence_lt (hm : s.Modest) (h : x.Fits s p) : x.action.sequence < 2 ^ 63 := by
  obtain ⟨y, hy, -, haction⟩ := h.ready
  exact haction ▸ hm.sequences hy

theorem resident_lt (hm : s.Modest) (h : x.Fits s p) (c : Catalog) (host : String) :
    Policy.resident c x.action host < 2 ^ 63 := by
  obtain ⟨y, hy, -, haction⟩ := h.ready
  exact Nat.lt_of_le_of_lt (Policy.resident_le c x.action host) (haction ▸ hm.reads hy)

theorem queueDepth_lt (ho : Covers s p) (hm : s.Modest) (h : x.Fits s p) :
    x.view.queueDepth < 2 ^ 63 := by
  obtain ⟨y, hy, hready, -⟩ := h.ready
  obtain ⟨w, hw, hview⟩ := Option.map_eq_some_iff.mp h.view
  rw [← hview]
  have hid : x.action.id ∈ s.ready := ho.sound.ready_iff.mpr ⟨y, hy, hready⟩
  exact Nat.lt_of_lt_of_le (ho.size_reservations_lt hid hw) hm.ids

end Candidate.Fits

/-! ## What the built-in policies choose -/

namespace Candidate.Best

open Policy (field_of_lt fifo loadBalancing dataLocality)

variable {s : Schedule} {p : Pool} {x : Candidate} {c : Catalog}

/-- Under `Policy.fifo` the action comes first that precedes the others, on the worker that
registered first. -/
theorem fifo_staged (ho : Covers s p) (hm : s.Modest) (h : x.Best fifo c s p) :
    x.Staged Action.Precedes WorkerView.Earlier s p := by
  refine h.staged ho fun {y} hy hxy => ?_
  simp only [Outranks, fifo, field_of_lt (h.fits.sequence_lt hm), field_of_lt (hy.sequence_lt hm),
    List.cons_lt_cons_iff, List.cons.injEq, List.lt_irrefl, and_false, or_false, and_true] at hxy
  unfold Action.Precedes WorkerView.Earlier
  omega

/-- Under `Policy.loadBalancing` the action comes first that outweighs the others, on the worker to
which the fewest actions are bound. -/
theorem loadBalancing_staged (ho : Covers s p) (hm : s.Modest)
    (h : x.Best loadBalancing c s p) : x.Staged Action.Outweighs WorkerView.Idler s p := by
  refine h.staged ho fun {y} hy hxy => ?_
  simp only [Outranks, loadBalancing, field_of_lt (h.fits.id_lt ho hm),
    field_of_lt (hy.id_lt ho hm), field_of_lt (h.fits.queueDepth_lt ho hm),
    field_of_lt (hy.queueDepth_lt ho hm), List.cons_lt_cons_iff, List.cons.injEq, List.lt_irrefl,
    and_false, or_false, and_true] at hxy
  unfold Action.Outweighs WorkerView.Idler
  omega

/-- Under `Policy.dataLocality` the pair comes first that is closer than the others. -/
theorem dataLocality_paired (ho : Covers s p) (hm : s.Modest) (h : x.Best dataLocality c s p) :
    x.Paired (Policy.Closer c) s p := by
  refine h.paired ho fun {y} hy hxy => ?_
  simp only [Outranks, dataLocality, field_of_lt (h.fits.resident_lt hm _ _),
    field_of_lt (hy.resident_lt hm _ _), List.cons_lt_cons_iff, List.cons.injEq, List.lt_irrefl,
    and_false, or_false, and_true] at hxy
  unfold Policy.Closer
  dsimp only
  omega

end Candidate.Best

/-! ## Bindings made in turn -/

/-- Bindings that are made one after another, each of them allowed by a rule for the table and the
pool that it finds, as long as anything fits. -/
inductive InTurn (next : Schedule → Pool → Candidate → Prop) :
    Schedule × Pool → List Assignment → Schedule × Pool → Prop where
  /-- Nothing fits. -/
  | stop {a : Schedule × Pool} (nothing : ∀ x : Candidate, ¬ x.Fits a.1 a.2) : InTurn next a [] a
  /-- A candidate is bound that the rule allows. -/
  | bind {a z : Schedule × Pool} {x : Candidate} {free : Capacity} {pool : Pool}
      {l : List Assignment} (chosen : next a.1 a.2 x)
      (reserved : a.2.reserve? x.view.key x.action.id x.implementation.requirement =
        some (free, pool))
      (rest : InTurn next (a.1.assign x.action.id x.view.key, pool) l z) :
    InTurn next a (x.assignment :: l) z

namespace InTurn

variable {next next' : Schedule → Pool → Candidate → Prop} {a z z' : Schedule × Pool}
  {l l' : List Assignment}

/-- What a strict rule allows a looser one allows. -/
theorem mono (hnext : ∀ {s p x}, next s p x → next' s p x) (h : InTurn next a l z) :
    InTurn next' a l z := by
  induction h with
  | stop nothing => exact .stop nothing
  | bind chosen reserved _ ih => exact .bind (hnext chosen) reserved ih

/-- Where the rule allows one candidate at most, there is one outcome at most. -/
theorem unique (hfits : ∀ {s p x}, next s p x → x.Fits s p)
    (hnext : ∀ {s p x y}, next s p x → next s p y → x = y) (h : InTurn next a l z)
    (h' : InTurn next a l' z') : l = l' ∧ z = z' := by
  induction h generalizing l' with
  | stop nothing =>
    cases h' with
    | stop _ => exact ⟨rfl, rfl⟩
    | bind chosen _ _ => exact absurd (hfits chosen) (nothing _)
  | bind chosen reserved _ ih =>
    cases h' with
    | stop nothing => exact absurd (hfits chosen) (nothing _)
    | bind chosen' reserved' rest' =>
      obtain rfl := hnext chosen chosen'
      rw [reserved] at reserved'
      obtain ⟨-, rfl⟩ := Prod.mk.inj (Option.some_inj.mp reserved')
      obtain ⟨rfl, rfl⟩ := ih rest'
      exact ⟨rfl, rfl⟩

end InTurn

namespace Naive

variable {next : Schedule → Pool → Candidate → Prop} {policy : Policy} {c : Catalog}
  {a b z : Schedule × Pool}

theorem Binds.modest {x : Candidate} (h : Naive.Binds policy c a x b) (hm : a.1.Modest) :
    b.1.Modest := by
  obtain @⟨free, q, best, -⟩ := h
  obtain ⟨y, hy, -⟩ := best.fits.ready
  have hback {id : Nat} {e : Standing}
      (he : (a.1.assign x.action.id x.view.key).standing? id = some e) :
      ∃ d, a.1.standing? id = some d ∧ d.action = e.action := by
    rw [Schedule.standing?_assign hy] at he
    split at he
    · next hid =>
      rw [← Option.some_inj.mp he]
      exact ⟨y, hid ▸ hy, rfl⟩
    · exact ⟨e, he, rfl⟩
  refine ⟨(Schedule.assign_frame hy x.view.key).2 ▸ hm.ids, fun he => ?_, fun he => ?_⟩ <;>
    obtain ⟨d, hd, haction⟩ := hback he
  · exact haction ▸ hm.sequences hd
  · exact haction ▸ hm.reads hd

/-- Where the rule allows the best candidate, the naive pass binds in turn. -/
theorem inTurn
    (hnext : ∀ {s p x}, Covers s p → s.Modest → x.Best policy c s p → next s p x)
    {l : List Assignment} (h : Naive policy c a l z) (ha : Covers a.1 a.2) (hm : a.1.Modest) :
    InTurn next a l z := by
  induction h with
  | stop nothing => exact .stop nothing
  | bind binds _ ih =>
    have hrest := ih (binds.covers ha) (binds.modest hm)
    obtain ⟨best, reserved⟩ := binds
    exact .bind (hnext ha hm best) reserved hrest

end Naive

/-! ## Passes of a grid -/

/-- The pass of a world binds in turn what a rule allows, and never overtakes a more urgent
action. -/
structure World.BindsInTurn (w : World) (next : Schedule → Pool → Candidate → Prop) : Prop where
  /-- The bindings, the pool and, but for what was told, the table come about in turn. -/
  outcome : ∃ t, InTurn next (w.schedule, w.pool) w.passed.outbox.assignments (t, w.passed.pool) ∧
    t.bare = w.passed.schedule.bare
  /-- Nothing else can come about in turn. -/
  sole : ∀ {l z}, InTurn next (w.schedule, w.pool) l z →
    l = w.passed.outbox.assignments ∧ z.2 = w.passed.pool ∧ z.1.bare = w.passed.schedule.bare
  /-- No action is bound while a more urgent one fits. -/
  urgent : ∃ t, InTurn Candidate.Urgent (w.schedule, w.pool) w.passed.outbox.assignments
    (t, w.passed.pool)

/-- A pass that nothing disturbs binds in turn what a rule allows, if that is the best candidate,
there is one at most, and nothing more urgent fits. -/
theorem World.bindsInTurn_of_covers {w : World} (ho : Covers w.schedule w.pool)
    (hm : w.schedule.Modest) (hp : w.policy.Faithful) (hcalm : w.disturbances = [])
    {next : Schedule → Pool → Candidate → Prop}
    (hnext : ∀ {s p x}, Covers s p → s.Modest → x.Best w.policy w.catalog s p → next s p x)
    (hunique : ∀ {s p x y}, next s p x → next s p y → x = y)
    (hurgent : ∀ {s p x}, next s p x → x.Urgent s p) : w.BindsInTurn next := by
  obtain ⟨t, hnaive, ht⟩ := (World.passesNaively_of_covers ho hp hcalm).outcome
  have hturn := hnaive.inTurn hnext ho hm
  refine ⟨⟨t, hturn, ht⟩, fun {l z} hz => ?_, ⟨t, hturn.mono hurgent⟩⟩
  obtain ⟨hl, rfl⟩ := hz.unique (fun hx => (hurgent hx).fits) hunique hturn
  exact ⟨hl, rfl, ht⟩

namespace Machine

open Policy (fifo loadBalancing dataLocality)

variable {rule : Conduct} {policy : Policy} {localNodes : List String} {withholds : Bool}
  {limit : Nat} {disturbances : List Disturbance} {l : List Command} {m : Machine}

/-- At every step of every run a pass binds, as long as anything fits:

* under `Policy.fifo` the most urgent action, then the one submitted first, then the one with the
  lowest identifier, on the first worker on which it fits;
* under `Policy.loadBalancing` the most urgent action, then the most urgent one within its group,
  then the one with the lowest identifier, where the fewest actions are bound;
* under `Policy.dataLocality` the action and the worker with the most urgent action, then with the
  most data at hand, then with the lowest identifier and the first worker;

each in the first way that fits there, and never an action while a more urgent one fits. -/
theorem Run.bindsInTurn
    (h : Run rule { World.fresh policy localNodes withholds limit with disturbances } l m)
    (hm : m.world.schedule.Modest) :
    let passing (policy : Policy) : World := { m.world with policy, disturbances := [] }
    (passing fifo).BindsInTurn (Candidate.Staged Action.Precedes WorkerView.Earlier) ∧
      (passing loadBalancing).BindsInTurn (Candidate.Staged Action.Outweighs WorkerView.Idler) ∧
      (passing dataLocality).BindsInTurn (Candidate.Paired (Policy.Closer m.world.catalog)) := by
  refine ⟨?_, ?_, ?_⟩
  · exact World.bindsInTurn_of_covers (w := { m.world with policy := fifo, disturbances := [] })
      h.covers hm Policy.faithful_fifo rfl Candidate.Best.fifo_staged Candidate.Staged.unique
      fun hx => hx.urgent Action.Precedes.urgent
  · exact World.bindsInTurn_of_covers
      (w := { m.world with policy := loadBalancing, disturbances := [] }) h.covers hm
      Policy.faithful_loadBalancing rfl Candidate.Best.loadBalancing_staged
      Candidate.Staged.unique fun hx => hx.urgent Action.Outweighs.urgent
  · exact World.bindsInTurn_of_covers
      (w := { m.world with policy := dataLocality, disturbances := [] }) h.covers hm
      Policy.faithful_dataLocality rfl Candidate.Best.dataLocality_paired
      Candidate.Paired.unique fun hx => hx.urgent Policy.Closer.urgent

/-! ### A grid with two actions that wait and two workers that stand idle -/

/-- A datum is kept on a host. -/
def shelving : Machine :=
  asked (.fresh .fifo [] false 8) 0 (.addReplica "d" (.ownFile "m" "/d"))

/-- A task that reads it is submitted when there is no worker. -/
def reading : Machine :=
  asked (shelving.advance 3).world 1
    (.submit ((Submission.single (.cpus 1) "h").reading "d") .silent)

/-- And a more urgent one that reads nothing. -/
def urging : Machine :=
  asked (reading.advance 8).world 2
    (.submit ((Submission.single (.cpus 1) "h").withPriority 1) .silent)

/-- A worker for both is added behind the scheduler, elsewhere. -/
def detouring : Machine :=
  asked (urging.advance 8).world 3 (.pool (.add (.permanent "n") (.cpus (1 + 1)) default))

/-- And another one, on the host of the datum. -/
def approaching : Machine :=
  asked (detouring.advance 2).world 4 (.pool (.add (.permanent "m") (.cpus (1 + 1)) default))

theorem course_approaching :
    Course (.lively fun _ => True) { World.fresh .fifo [] false 8 with disturbances := [] }
      (moments 2 approaching ++ (moments 2 detouring ++ (moments 8 urging ++
        (moments 8 reading ++ (moments 3 shelving ++ [])))))
      ⟨(approaching.advance 2).world, []⟩ :=
  ((((Course.start.call 0 3 trivial (by decide +kernel)).call 1 8 trivial
    (by decide +kernel)).call 2 8 trivial (by decide +kernel)).call 3 2 trivial
    (by decide +kernel)).call 4 2 trivial (by decide +kernel)

/-- Whoever lists the workers by their keys sees the same of them as a pass, in another order. -/
theorem mem_listed_iff {p : Pool} {v : WorkerView} :
    (v ∈ (p.workers.entries.map fun e => e.2.view e.1).filter fun v => !v.removing) ↔
      v ∈ Pass.accepting p := by
  unfold Pass.accepting Pool.views
  rw [List.mem_filter, List.mem_filter, (List.mergeSort_perm _ _).mem_iff]

/-- The urgent action goes to the worker that registered first.  The other one follows it under
`Policy.fifo`, goes where nothing is bound yet under `Policy.loadBalancing`, and goes to its datum
under `Policy.dataLocality`. -/
theorem bindsInTurn_approaching :
    let w := (approaching.advance 2).world
    let bound (policy : Policy) : List (Nat × String) :=
      ({ w with policy, disturbances := [] } : World).passed.outbox.assignments.map fun a =>
        (a.action, a.worker.text)
    (bound fifo = [(2, "n"), (1, "n")] ∧ bound loadBalancing = [(2, "n"), (1, "m")] ∧
      bound dataLocality = [(2, "n"), (1, "m")]) ∧ w.schedule.Modest ∧
      ({ w with policy := loadBalancing, disturbances := [] } : World).BindsInTurn
        (Candidate.Staged Action.Outweighs WorkerView.Idler) := by
  obtain ⟨l, hl⟩ := course_approaching.run
  have hlive : ∀ e ∈ (approaching.advance 2).world.schedule.actions.entries,
      e.2.action.sequence < 2 ^ 63 ∧ e.2.action.task.dependencies.length < 2 ^ 63 := by
    decide +kernel
  have hm : (approaching.advance 2).world.schedule.Modest := by
    refine ⟨by decide +kernel, fun hx => ?_, fun hx => ?_⟩ <;>
      obtain ⟨e, he, rfl⟩ := Schedule.standing?_eq_some_iff.mp hx
    · exact (hlive _ (SortedMap.mem_entries_iff.mpr he)).1
    · exact (hlive _ (SortedMap.mem_entries_iff.mpr he)).2
  have listed {policy : Policy} (hp : policy.Faithful) :=
    ((World.passesNaively_of_covers (w := { (approaching.advance 2).world with
      policy, disturbances := [] }) hl.covers hp rfl).anyViews fun _ => mem_listed_iff).1.symm
  refine ⟨⟨?_, ?_, ?_⟩, hm, (Run.bindsInTurn hl hm).2.1⟩
  · exact (congrArg (List.map _) (listed Policy.faithful_fifo)).trans (by decide +kernel)
  · exact (congrArg (List.map _) (listed Policy.faithful_loadBalancing)).trans (by decide +kernel)
  · exact (congrArg (List.map _) (listed Policy.faithful_dataLocality)).trans (by decide +kernel)

end Machine

end TaskGrid
