import TaskGrid.Proofs.Holdings
import TaskGrid.Proofs.Picks

/-!
# Passes do what a naive pass would do

A pass takes the views of the workers once and corrects them by hand after every binding, and what
it binds next depends on them.  A naive pass has nothing to correct: before every binding it looks
at the pool again, and of everything that fits there it binds what outranks all the rest.

## The argument

The views of a steady pass are those of the pool, so what fits in view is what fits in the pool.
Among things that fit no two have the same rank: actions differ by their identifiers, workers by
their numbers, ways by their positions.  So one of them outranks all others, and whoever compares
them finds it, in whatever order.  Its reservation is made, because it fits, and what becomes of
table and pool is what the naive pass makes of them, but for the record of who was told what
(`Schedule.bare`).

* `Candidate.Fits`, `Candidate.Outranks`, `Candidate.Best`: what the naive pass looks for.
* `Naive`, `Naive.unique`: the naive pass, and that it has one outcome at most.
* `Candidate.best_iff_foldl_choose`: every enumeration leads to the best candidate.
* `Machine.Run.passesNaively`: every pass that nothing disturbs, in every run.
-/

namespace TaskGrid

open Pass (candidates accepting choose rank)

/-! ## Policies and ranks -/

/-- Every score carries the identifier of the action that is scored. -/
def Policy.Faithful (policy : Policy) : Prop :=
  ∀ c a v i, (policy.score c a v i).action = a.id

namespace Policy

theorem faithful_fifo : fifo.Faithful := fun _ _ _ _ => rfl

theorem faithful_dataLocality : dataLocality.Faithful := fun _ _ _ _ => rfl

theorem faithful_loadBalancing : loadBalancing.Faithful := fun _ _ _ _ => rfl

theorem faithful_ofTable (rows : List (Pattern × List Int)) : (ofTable rows).Faithful :=
  fun _ _ _ _ => rfl

end Policy

/-- Fields compare lexicographically. -/
theorem Score.compare_fields_eq_gt_iff {a b : List Int} : compare a b = .gt ↔ b < a := by
  show List.compareLex compare a b = .gt ↔ b < a
  induction a generalizing b with
  | nil =>
    cases b <;> simp [List.compareLex_nil_nil, List.compareLex_nil_cons]
  | cons x a ih =>
    cases b with
    | nil => simp [List.compareLex_cons_nil]
    | cons y b =>
      rw [List.compareLex_cons_cons, Ordering.then_eq_gt, ih, List.cons_lt_cons_iff,
        Std.compare_eq_gt, Std.LawfulEqCmp.compare_eq_iff_eq, eq_comm (a := x)]

namespace Candidate

/-- A candidate comes before another: its fields are greater, or they are the same and the action
has the lower identifier, or that is the same too and the worker registered earlier, or else the
implementation is listed earlier. -/
def Outranks (policy : Policy) (c : Catalog) (x y : Candidate) : Prop :=
  let fields (z : Candidate) := (policy.score c z.action z.view z.implementation).fields
  fields y < fields x ∨ fields x = fields y ∧ (x.action.id < y.action.id ∨
    x.action.id = y.action.id ∧ (x.view.seq < y.view.seq ∨
      x.view.seq = y.view.seq ∧ x.index < y.index))

variable {policy : Policy} {c : Catalog} {s t : Schedule} {p : Pool} {x y : Candidate}

/-- Ranks compare as candidates do. -/
theorem better_iff_outranks (hp : policy.Faithful) :
    (rank policy c x).better (rank policy c y) = true ↔ x.Outranks policy c y := by
  rw [Rank.better_iff]
  unfold Rank.cmp Score.cmp Outranks rank
  simp only [Ordering.then_eq_gt, Ordering.then_eq_eq, Score.compare_fields_eq_gt_iff,
    Std.LawfulEqCmp.compare_eq_iff_eq, Std.compare_eq_gt, hp c]
  rw [eq_comm (a := y.action.id), eq_comm (a := y.view.seq)]
  tauto

/-! ## What fits -/

/-- A ready action can be carried out in some way on a worker that accepts actions, and the
candidate shows the worker as it is now. -/
structure Fits (s : Schedule) (p : Pool) (x : Candidate) : Prop where
  /-- The action is ready. -/
  ready : ∃ y, s.standing? x.action.id = some y ∧ y.state = .ready ∧ y.action = x.action
  /-- The view is that of the worker. -/
  view : p.view? x.view.key = some x.view
  /-- The worker was not asked to leave. -/
  accepts : x.view.removing = false
  /-- The implementation is one of the action's. -/
  way : x.action.task.implementations[x.index]? = some x.implementation
  /-- What it requires is free. -/
  room : x.view.free.contains x.implementation.requirement = true

/-- What fits comes before everything else that fits. -/
structure Best (policy : Policy) (c : Catalog) (s : Schedule) (p : Pool) (x : Candidate) :
    Prop where
  /-- It fits. -/
  fits : x.Fits s p
  /-- It comes before the others. -/
  outranks : ∀ y, y.Fits s p → y ≠ x → x.Outranks policy c y

/-- The views of accepting workers show the workers as they are. -/
theorem mem_accepting_iff {v : WorkerView} :
    v ∈ accepting p ↔ p.view? v.key = some v ∧ v.removing = false := by
  unfold Pool.view?
  rw [Pass.mem_accepting, Option.map_eq_some_iff]
  constructor
  · rintro ⟨w, hw, hr, hv⟩
    refine ⟨⟨w, hw, hv.symm⟩, ?_⟩
    rw [hv]
    exact hr
  · rintro ⟨⟨w, hw, hv⟩, hr⟩
    refine ⟨w, hw, ?_, hv.symm⟩
    rw [← hv] at hr
    exact hr

/-- The candidates on accepting workers are what fits. -/
theorem mem_candidates_iff_fits (hs : s.Sound) {views : List WorkerView}
    (hv : ∀ v, v ∈ views ↔ v ∈ accepting p) : x ∈ candidates s views ↔ x.Fits s p := by
  rw [Pass.mem_candidates hs, hv, mem_accepting_iff]
  exact ⟨fun ⟨hr, ⟨hv, ha⟩, hi, hf⟩ => ⟨hr, hv, ha, hi, hf⟩,
    fun h => ⟨h.ready, ⟨h.view, h.accepts⟩, h.way, h.room⟩⟩

/-- Ready actions are told apart by their identifiers. -/
theorem Fits.action_eq (hx : x.Fits s p) (hy : y.Fits s p) (h : x.action.id = y.action.id) :
    x.action = y.action := by
  obtain ⟨a, ha, -, hxa⟩ := hx.ready
  obtain ⟨b, hb, -, hyb⟩ := hy.ready
  rw [h, hb] at ha
  rw [← hxa, ← hyb, Option.some_inj.mp ha]

/-- Workers are told apart by their numbers. -/
theorem Fits.view_eq (ho : Covers s p) (hx : x.Fits s p) (hy : y.Fits s p)
    (h : x.view.seq = y.view.seq) : x.view = y.view := by
  obtain ⟨v, hv, hxv⟩ := Option.map_eq_some_iff.mp hx.view
  obtain ⟨u, hu, hyu⟩ := Option.map_eq_some_iff.mp hy.view
  have hkey : x.view.key = y.view.key := by
    refine ho.distinct hv hu ?_
    rw [← hxv, ← hyu] at h
    exact h
  rw [hkey, hu] at hv
  rw [← hxv, ← hyu, Option.some_inj.mp hv, hkey]

/-- Candidates that fit are told apart by action, worker and position. -/
theorem Fits.ext (hx : x.Fits s p) (hy : y.Fits s p) (haction : x.action = y.action)
    (hview : x.view = y.view) (hindex : x.index = y.index) : x = y := by
  have himpl : x.implementation = y.implementation := by
    have hway := hx.way
    rw [haction, hindex, hy.way] at hway
    exact (Option.some_inj.mp hway).symm
  cases x
  cases y
  simp_all

/-- No two candidates that fit have the same rank. -/
theorem Fits.eq_of_rank_eq (ho : Covers s p) (hp : policy.Faithful) (hx : x.Fits s p)
    (hy : y.Fits s p) (h : rank policy c x = rank policy c y) : x = y := by
  obtain ⟨hscore, hseq, hindex⟩ := Rank.mk.inj h
  have hid : x.action.id = y.action.id := by
    rw [← hp c x.action x.view x.implementation, hscore, hp]
  exact hx.ext hy (hx.action_eq hy hid) (hx.view_eq ho hy hseq) hindex

/-- Of two candidates that fit, one comes before the other. -/
theorem Fits.outranks_of_not (ho : Covers s p) (hp : policy.Faithful) (hx : x.Fits s p)
    (hy : y.Fits s p) (hne : y ≠ x) (h : ¬ y.Outranks policy c x) : x.Outranks policy c y := by
  rw [← better_iff_outranks hp] at h ⊢
  rw [Rank.better_iff] at h ⊢
  cases hcmp : (rank policy c x).cmp (rank policy c y) with
  | gt => rfl
  | lt => exact absurd (Std.OrientedCmp.gt_iff_lt.mpr hcmp) h
  | eq => exact absurd (hx.eq_of_rank_eq ho hp hy (Rank.cmp_eq_eq_iff.mp hcmp)).symm hne

theorem Outranks.asymm (hp : policy.Faithful) (h : x.Outranks policy c y) :
    ¬ y.Outranks policy c x := by
  rw [← better_iff_outranks hp, Rank.better_iff] at h ⊢
  rw [Std.OrientedCmp.gt_iff_lt, h]
  exact nofun

/-- There is one best candidate at most. -/
theorem Best.unique (hp : policy.Faithful) (hx : x.Best policy c s p) (hy : y.Best policy c s p) :
    x = y := by
  by_contra hne
  exact (hx.outranks y hy.fits (Ne.symm hne)).asymm hp (hy.outranks x hx.fits hne)

/-- Whoever compares all that fits, in whatever order, finds the best candidate. -/
theorem best_iff_foldl_choose (ho : Covers s p) (hp : policy.Faithful) {l : List Candidate}
    (hl : ∀ x, x ∈ l ↔ x.Fits s p) :
    (l.foldl (choose policy c) none).map Prod.snd = some x ↔ x.Best policy c s p := by
  have hbest {x : Candidate} (h : Leads policy c l x) : x.Best policy c s p := by
    obtain ⟨l₁, l₂, rfl, hbefore, hafter⟩ := h
    have hx : x.Fits s p := (hl x).mp (by simp)
    refine ⟨hx, fun y hy hne => ?_⟩
    rcases List.mem_append.mp ((hl y).mpr hy) with hmem | hmem
    · exact (better_iff_outranks hp).mp (hbefore y hmem)
    · refine hx.outranks_of_not ho hp hy hne fun hyx => ?_
      rw [← better_iff_outranks hp, hafter y ((List.mem_cons.mp hmem).resolve_left hne)] at hyx
      cases hyx
  rcases Pass.leads_of_foldl_choose policy c l with ⟨hnone, rfl⟩ | ⟨z, hz, hleads⟩
  · rw [hnone]
    exact iff_of_false nofun fun hx => absurd ((hl x).mpr hx.fits) List.not_mem_nil
  · rw [hz, Option.map_some, Option.some_inj]
    constructor
    · rintro rfl
      exact hbest hleads
    · exact fun hx => (hbest hleads).unique hp hx

/-- As soon as something fits there is one best candidate. -/
theorem existsUnique_best (ho : Covers s p) (hp : policy.Faithful)
    (h : ∃ x : Candidate, x.Fits s p) : ∃! x : Candidate, x.Best policy c s p := by
  have hl (x : Candidate) : x ∈ candidates s (accepting p) ↔ x.Fits s p :=
    mem_candidates_iff_fits ho.sound fun _ => .rfl
  obtain ⟨y, hy⟩ := h
  rcases Pass.leads_of_foldl_choose policy c (candidates s (accepting p)) with
    ⟨-, hnil⟩ | ⟨x, hx, -⟩
  · rw [← hl, hnil] at hy
    cases hy
  · have hbest := (best_iff_foldl_choose (c := c) ho hp hl).mp (by rw [hx]; rfl)
    exact ⟨x, hbest, fun z hz => hz.unique hp hbest⟩

/-- The assignment that binds a candidate. -/
def assignment (x : Candidate) : Assignment :=
  ⟨x.action.id, x.view.key, x.index, x.implementation.handler, x.implementation.requirement⟩

end Candidate

/-! ## The naive pass -/

namespace Schedule

/-- The table with a ready action bound to a worker. -/
def assign (s : Schedule) (id : Nat) (key : WorkerKey) : Schedule :=
  match s.actions.get? id with
  | none => s
  | some e =>
    { s with
      ready := s.ready.erase id
      actions := s.actions.insert id { e with state := .assigned, binding := some key } }

/-- The table without the record of who was told what. -/
def bare (s : Schedule) : Schedule :=
  { s with actions := s.actions.mapValues fun e => { e with told := [] } }

end Schedule

/-- The best candidate is bound. -/
inductive Naive.Binds (policy : Policy) (c : Catalog) (a : Schedule × Pool) (x : Candidate) :
    Schedule × Pool → Prop where
  /-- What it requires is reserved. -/
  | intro {free : Capacity} {pool : Pool} (best : x.Best policy c a.1 a.2)
      (reserved : a.2.reserve? x.view.key x.action.id x.implementation.requirement =
        some (free, pool)) :
    Naive.Binds policy c a x (a.1.assign x.action.id x.view.key, pool)

/-- The naive pass: the best candidate is bound as long as anything fits. -/
inductive Naive (policy : Policy) (c : Catalog) :
    Schedule × Pool → List Assignment → Schedule × Pool → Prop where
  /-- Nothing fits. -/
  | stop {a : Schedule × Pool} (nothing : ∀ x : Candidate, ¬ x.Fits a.1 a.2) :
    Naive policy c a [] a
  /-- The best candidate is bound. -/
  | bind {a b z : Schedule × Pool} {x : Candidate} {l : List Assignment}
      (binds : Naive.Binds policy c a x b) (rest : Naive policy c b l z) :
    Naive policy c a (x.assignment :: l) z

namespace Naive

variable {policy : Policy} {c : Catalog} {a b z : Schedule × Pool}

/-- The naive pass goes through these states. -/
def Visits (policy : Policy) (c : Catalog) : Schedule × Pool → Schedule × Pool → Prop :=
  Relation.ReflTransGen fun a b => ∃ x, Naive.Binds policy c a x b

/-- The naive pass has one outcome at most. -/
theorem unique (hp : policy.Faithful) {l l' : List Assignment} {z' : Schedule × Pool}
    (h : Naive policy c a l z) (h' : Naive policy c a l' z') : l = l' ∧ z = z' := by
  induction h generalizing l' with
  | stop nothing =>
    cases h' with
    | stop _ => exact ⟨rfl, rfl⟩
    | bind binds _ =>
      obtain ⟨best, -⟩ := binds
      exact absurd best.fits (nothing _)
  | bind binds _ ih =>
    obtain ⟨best, reserved⟩ := binds
    cases h' with
    | stop nothing => exact absurd best.fits (nothing _)
    | bind binds' rest' =>
      obtain ⟨best', reserved'⟩ := binds'
      obtain rfl := best.unique hp best'
      rw [reserved] at reserved'
      obtain ⟨-, rfl⟩ := Prod.mk.inj (Option.some_inj.mp reserved')
      obtain ⟨rfl, rfl⟩ := ih rest'
      exact ⟨rfl, rfl⟩

end Naive

/-! ## Tables but for what was told -/

namespace Schedule

variable {s t : Schedule}

theorem actions_bare (s : Schedule) (id : Nat) :
    s.bare.actions.get? id = (s.actions.get? id).map fun e => { e with told := [] } :=
  SortedMap.get?_mapValues _ _ _

@[simp] theorem standing?_bare (s : Schedule) (id : Nat) :
    s.bare.standing? id = s.standing? id := by
  unfold standing?
  rw [actions_bare, Option.map_map]
  rfl

/-- Two tables that differ in one place each, where they say the same but for what was told. -/
theorem bare_eq_of_insert {actions : SortedMap Nat Entry} {id : Nat} {e f : Entry}
    (h : { e with told := [] } = { f with told := [] }) :
    ({ s with actions := actions.insert id e } : Schedule).bare =
      ({ s with actions := actions.insert id f } : Schedule).bare := by
  unfold bare
  congr 1
  refine SortedMap.ext_get? fun i => ?_
  rw [SortedMap.get?_mapValues, SortedMap.get?_mapValues, SortedMap.get?_insert,
    SortedMap.get?_insert]
  split
  · exact congrArg some h
  · rfl

/-- An entry that says the same but for what was told. -/
theorem bare_insert_self {id : Nat} {e f : Entry} (he : s.actions.get? id = some e)
    (h : { f with told := [] } = { e with told := [] }) :
    ({ s with actions := s.actions.insert id f } : Schedule).bare = s.bare := by
  unfold bare
  congr 1
  refine SortedMap.ext_get? fun i => ?_
  rw [SortedMap.get?_mapValues, SortedMap.get?_mapValues, SortedMap.get?_insert]
  split
  · next hi =>
    rw [hi, he]
    exact congrArg some h
  · rfl

/-- What was told does not matter when an action is bound. -/
theorem bare_assign (s : Schedule) (id : Nat) (key : WorkerKey) :
    (s.assign id key).bare = s.bare.assign id key := by
  unfold assign
  rw [actions_bare]
  cases s.actions.get? id with
  | none => rfl
  | some e =>
    unfold bare
    dsimp only [Option.map_some]
    congr 1
    refine SortedMap.ext_get? fun i => ?_
    rw [SortedMap.get?_mapValues, SortedMap.get?_insert, SortedMap.get?_insert,
      SortedMap.get?_mapValues]
    split <;> rfl

theorem standing?_assign {id : Nat} {y : Standing} (hy : s.standing? id = some y)
    (key : WorkerKey) (j : Nat) :
    (s.assign id key).standing? j =
      if j = id then some { y with state := .assigned, binding := some key }
      else s.standing? j := by
  obtain ⟨e, he, rfl⟩ := standing?_eq_some_iff.mp hy
  rw [assign, he]
  exact standing?_of_insert (e := { e with state := .assigned, binding := some key }) rfl j

theorem assign_frame {id : Nat} {y : Standing} (hy : s.standing? id = some y) (key : WorkerKey) :
    (s.assign id key).ready = s.ready.erase id ∧ (s.assign id key).nextId = s.nextId := by
  obtain ⟨e, he, -⟩ := standing?_eq_some_iff.mp hy
  unfold assign
  rw [he]
  exact ⟨rfl, rfl⟩

end Schedule

/-- What fits does not depend on what was told. -/
theorem Candidate.fits_congr {s t : Schedule} (h : s.bare = t.bare) {p : Pool} {x : Candidate} :
    x.Fits s p ↔ x.Fits t p := by
  have hst (id : Nat) : s.standing? id = t.standing? id := by
    rw [← s.standing?_bare, h, t.standing?_bare]
  exact ⟨fun hx => ⟨hst _ ▸ hx.ready, hx.view, hx.accepts, hx.way, hx.room⟩,
    fun hx => ⟨hst _ ▸ hx.ready, hx.view, hx.accepts, hx.way, hx.room⟩⟩

theorem Candidate.best_congr {policy : Policy} {c : Catalog} {s t : Schedule}
    (h : s.bare = t.bare) {p : Pool} {x : Candidate} :
    x.Best policy c s p ↔ x.Best policy c t p :=
  ⟨fun hx => ⟨(fits_congr h).mp hx.fits, fun y hy => hx.outranks y ((fits_congr h).mpr hy)⟩,
    fun hx => ⟨(fits_congr h).mpr hx.fits, fun y hy => hx.outranks y ((fits_congr h).mp hy)⟩⟩

/-! ## States of the naive pass -/

namespace Naive

variable {policy : Policy} {c : Catalog} {a b z : Schedule × Pool}

theorem Binds.covers {x : Candidate} (h : Naive.Binds policy c a x b) (ha : Covers a.1 a.2) :
    Covers b.1 b.2 := by
  obtain @⟨free, q, best, reserved⟩ := h
  obtain ⟨y, hy, hready, hact⟩ := best.fits.ready
  obtain ⟨w, w', hw, hr, -, hpool⟩ := Pool.reserve?_eq_some_iff.mp reserved
  have hid : y.action.id = x.action.id := by rw [hact]
  obtain ⟨hready', hnext⟩ := Schedule.assign_frame hy x.view.key
  have hb : a.1.Binds a.2 y x.view.key x.implementation (a.1.assign x.action.id x.view.key) q := by
    refine ⟨hid ▸ hy, hready, ?_, ⟨w, w', hw, hid ▸ hr, hpool⟩, ?_, hid ▸ hready', hnext⟩
    · rw [hact]
      exact List.mem_of_getElem? best.fits.way
    · rw [hid]
      exact Schedule.standing?_assign hy x.view.key
  exact ha.binds hb

theorem Visits.covers (h : Visits policy c a z) (ha : Covers a.1 a.2) : Covers z.1 z.2 := by
  induction h with
  | refl => exact ha
  | tail _ hbz ih =>
    obtain ⟨x, hx⟩ := hbz
    exact hx.covers ih

end Naive

/-! ## Steady passes are naive -/

namespace Pass

open Schedule (standing?_eq_some_iff)

variable {p q : Pass} {policy : Policy}

/-- The best candidate of a steady pass is the best candidate. -/
theorem best_of_best? (h : p.Steady) (ho : Covers p.schedule p.pool) (hp : policy.Faithful)
    {x : Candidate} (hx : (p.best? policy).2 = some x) :
    x.Best policy p.catalog p.schedule p.pool := by
  rw [best?_of_calm policy h.calm] at hx
  exact (Candidate.best_iff_foldl_choose ho hp
    fun y => Candidate.mem_candidates_iff_fits h.sound h.mem_views).mp hx

/-- In a table and in what there is to tell, a binding adds the candidate. -/
theorem bind_outcome {x : Candidate} (free : Capacity) (pool : Pool) {e : Entry}
    (he : p.schedule.actions.get? x.action.id = some e) :
    (p.bind x free pool).schedule.bare = p.schedule.bare.assign x.action.id x.view.key ∧
      (p.bind x free pool).outbox.assignments = p.outbox.assignments ++ [x.assignment] := by
  rw [← Schedule.bare_assign]
  unfold bind Schedule.assign
  dsimp only
  rw [he]
  refine ⟨Schedule.bare_eq_of_insert (s := { p.schedule with
    ready := p.schedule.ready.erase x.action.id }) ?_, ?_⟩
  · unfold Entry.emit
    split <;> rfl
  · dsimp only
    unfold Entry.emit
    split <;> rfl

/-- A step of a steady pass binds the best candidate, and its reservation is made. -/
theorem step_naive (h : p.Steady) (ho : Covers p.schedule p.pool) (hp : policy.Faithful)
    {x : Candidate} (hx : (p.best? policy).2 = some x) :
    ∃ q free, p.step policy = (q, true) ∧ q.Steady ∧ Covers q.schedule q.pool ∧
      x.Best policy p.catalog p.schedule p.pool ∧
      p.pool.reserve? x.view.key x.action.id x.implementation.requirement =
        some (free, q.pool) ∧
      q.catalog = p.catalog ∧
      q.schedule.bare = p.schedule.bare.assign x.action.id x.view.key ∧
      q.outbox.assignments = p.outbox.assignments ++ [x.assignment] ∧
      q.schedule.ready.size + 1 = p.schedule.ready.size := by
  obtain ⟨y, free, pool, hq, -, hact, hb, hs⟩ := step_of_steady h hx
  have hcount : (p.best? policy).1 =
      { p with scored := p.scored + (candidates p.schedule p.views).length } := by
    rw [best?_of_calm policy h.calm]
  have hid : y.action.id = x.action.id := by rw [hact]
  obtain ⟨e, he, -⟩ := standing?_eq_some_iff.mp (hid ▸ hb.live)
  rw [hcount] at hq hb hs
  obtain ⟨w, w', hw, hr, hpool⟩ := hb.reserved
  obtain ⟨hbare, hassigned⟩ := bind_outcome (p := { p with
    scored := p.scored + (candidates p.schedule p.views).length }) free pool he
  refine ⟨_, w'.free, hq, hs, ho.binds hb, best_of_best? h ho hp hx, ?_, ?_, hbare, hassigned, ?_⟩
  · exact Pool.reserve?_eq_some_iff.mpr ⟨w, w', hw, hid ▸ hr, rfl, hpool⟩
  · exact (bind_frame (p := { p with
      scored := p.scored + (candidates p.schedule p.views).length }) free pool he).2.1
  · rw [hb.ready]
    exact SortedSet.size_erase_add_one (h.sound.ready_iff.mpr ⟨y, hb.live, hb.state⟩)

/-- With more steps than there are ready actions, a steady pass comes to the outcome of the naive
pass. -/
theorem steps_naive (hp : policy.Faithful) (n : Nat) (h : p.Steady)
    (ho : Covers p.schedule p.pool) (hn : p.schedule.ready.size < n) {s : Schedule}
    (hs : s.bare = p.schedule.bare) :
    ∃ l t, Naive policy p.catalog (s, p.pool) l (t, (steps policy n p).pool) ∧
      t.bare = (steps policy n p).schedule.bare ∧
      (steps policy n p).outbox.assignments = p.outbox.assignments ++ l := by
  induction n generalizing p s with
  | zero => omega
  | succ n ih =>
    unfold steps
    cases hx : (p.best? policy).2 with
    | none =>
      have hnil := candidates_eq_nil_of_best? h.calm hx
      rw [step_of_best?_eq_none hx]
      dsimp only
      rw [best?_of_calm policy h.calm]
      refine ⟨[], s, .stop fun x hfits => ?_, hs, (List.append_nil _).symm⟩
      rw [Candidate.fits_congr hs, ← Candidate.mem_candidates_iff_fits h.sound h.mem_views,
        hnil] at hfits
      cases hfits
    | some x =>
      obtain ⟨q, free, hq, hsteady, horder, hbest, hres, hcat, hbare, hassigned, hsize⟩ :=
        step_naive h ho hp hx
      have hs' : (s.assign x.action.id x.view.key).bare = q.schedule.bare := by
        rw [Schedule.bare_assign, hs, hbare]
      obtain ⟨l, t, hnaive, ht, hl⟩ := ih hsteady horder (by omega) hs'
      rw [hq]
      rw [hcat] at hnaive
      refine ⟨x.assignment :: l, t, .bind ⟨(Candidate.best_congr hs).mpr hbest, hres⟩ hnaive, ht,
        ?_⟩
      rw [hl, hassigned, List.append_assoc, List.singleton_append]

theorem reportOne_outcome (views : List WorkerView) (s : Schedule) (o : Outbox) (id : Nat) :
    (reportOne views s o id).1.bare = s.bare ∧
      (reportOne views s o id).2.assignments = o.assignments := by
  unfold reportOne
  cases he : s.actions.get? id with
  | none => exact ⟨rfl, rfl⟩
  | some x =>
    dsimp only
    split
    · exact ⟨rfl, rfl⟩
    · refine ⟨Schedule.bare_insert_self he ?_, ?_⟩ <;>
      · unfold Entry.emit
        split <;> rfl

theorem reportIneligible_outcome (p : Pass) :
    p.reportIneligible.schedule.bare = p.schedule.bare ∧
      p.reportIneligible.outbox.assignments = p.outbox.assignments :=
  List.foldlRecOn
    (motive := fun r : Schedule × Outbox =>
      r.1.bare = p.schedule.bare ∧ r.2.assignments = p.outbox.assignments)
    p.schedule.ready.toList _ ⟨rfl, rfl⟩ fun r hr id _ =>
      ⟨(reportOne_outcome (accepting p.pool) r.1 r.2 id).1.trans hr.1,
        (reportOne_outcome (accepting p.pool) r.1 r.2 id).2.trans hr.2⟩

/-- A whole pass comes to the outcome of the naive pass. -/
theorem run_naive (hp : policy.Faithful) (h : p.Steady) (ho : Covers p.schedule p.pool) :
    ∃ l t, Naive policy p.catalog (p.schedule, p.pool) l (t, (p.run policy).pool) ∧
      t.bare = (p.run policy).schedule.bare ∧
      (p.run policy).outbox.assignments = p.outbox.assignments ++ l := by
  obtain ⟨l, t, hnaive, ht, hl⟩ :=
    steps_naive hp p.bound h ho (by unfold bound; omega) (s := p.schedule) rfl
  obtain ⟨hbare, hassigned⟩ := reportIneligible_outcome (steps policy p.bound p)
  exact ⟨l, t, hnaive, ht.trans hbare.symm, hassigned.trans hl⟩

/-- No reservation of a steady pass is refused, however far it has come. -/
theorem reserves_of_steps (hp : policy.Faithful) (h : p.Steady) (ho : Covers p.schedule p.pool)
    (hq : Relation.ReflTransGen (fun a b => a.step policy = (b, true)) p q) {x : Candidate}
    (hx : (q.best? policy).2 = some x) :
    ((q.best? policy).1.pool.reserve? x.view.key x.action.id
      x.implementation.requirement).isSome = true := by
  suffices hs : q.Steady ∧ Covers q.schedule q.pool by
    obtain ⟨r, free, -, -, -, -, hres, -⟩ := step_naive hs.1 hs.2 hp hx
    rw [best?_of_calm policy hs.1.calm]
    exact Option.isSome_iff_exists.mpr ⟨_, hres⟩
  clear hx
  induction hq with
  | refl => exact ⟨h, ho⟩
  | @tail a b _ hab ih =>
    cases hx : (a.best? policy).2 with
    | none =>
      rw [step_of_best?_eq_none hx] at hab
      cases hab
    | some x =>
      obtain ⟨r, free, hr, hsteady, horder, -⟩ := step_naive ih.1 ih.2 hp hx
      rw [hr] at hab
      obtain ⟨rfl, -⟩ := Prod.mk.inj hab
      exact ⟨hsteady, horder⟩

end Pass

/-! ## Passes of a grid -/

/-- The pass of a world does what the naive pass does. -/
structure World.PassesNaively (w : World) : Prop where
  /-- The bindings, the pool and, but for what was told, the table are those of the naive pass. -/
  outcome : ∃ t, Naive w.policy w.catalog (w.schedule, w.pool) w.passed.outbox.assignments
    (t, w.passed.pool) ∧ t.bare = w.passed.schedule.bare
  /-- The naive pass comes to nothing else. -/
  sole : ∀ {l z}, Naive w.policy w.catalog (w.schedule, w.pool) l z →
    l = w.passed.outbox.assignments ∧ z.2 = w.passed.pool ∧ z.1.bare = w.passed.schedule.bare
  /-- A command for a pass is answered with the bindings. -/
  answer : ∀ token, (w.obey token .pass).2.getLast? =
    some (.reply token (.assignments w.passed.outbox.assignments))
  /-- Whenever anything fits, one candidate is the best. -/
  best : ∀ {z}, Naive.Visits w.policy w.catalog (w.schedule, w.pool) z →
    (∃ x : Candidate, x.Fits z.1 z.2) → ∃! x : Candidate, x.Best w.policy w.catalog z.1 z.2
  /-- It is found in whatever order candidates are compared. -/
  anyOrder : ∀ {z}, Naive.Visits w.policy w.catalog (w.schedule, w.pool) z →
    ∀ {l : List Candidate}, (∀ x, x ∈ l ↔ x.Fits z.1 z.2) → ∀ {x : Candidate},
      ((l.foldl (choose w.policy w.catalog) none).map Prod.snd = some x ↔
        x.Best w.policy w.catalog z.1 z.2)
  /-- The outcome is the same in whatever order the workers are looked at. -/
  anyViews : ∀ {views}, (∀ v, v ∈ views ↔ v ∈ accepting w.pool) →
    let r := ({ Pass.start w.schedule w.pool w.catalog w.disturbances w.scored with views } :
      Pass).run w.policy
    r.outbox.assignments = w.passed.outbox.assignments ∧ r.pool = w.passed.pool ∧
      r.schedule.bare = w.passed.schedule.bare
  /-- No reservation of the pass is refused. -/
  reserves : ∀ {q}, Relation.ReflTransGen (fun a b : Pass => a.step w.policy = (b, true))
    (Pass.start w.schedule w.pool w.catalog w.disturbances w.scored) q →
      ∀ {x}, (q.best? w.policy).2 = some x →
        ((q.best? w.policy).1.pool.reserve? x.view.key x.action.id
          x.implementation.requirement).isSome = true

/-- Where the table covers what the pool holds, a pass that nothing disturbs does what the naive
pass does. -/
theorem World.passesNaively_of_covers {w : World} (ho : Covers w.schedule w.pool)
    (hp : w.policy.Faithful) (hcalm : w.disturbances = []) : w.PassesNaively := by
  have hsteady (views : List WorkerView) (hv : ∀ v, v ∈ views ↔ v ∈ accepting w.pool) :
      ({ Pass.start w.schedule w.pool w.catalog w.disturbances w.scored with views } :
        Pass).Steady :=
    ⟨hcalm, ho.sound, hv, fun hid _ _ hw => ho.unheld hid hw⟩
  have hrun (views : List WorkerView) (hv : ∀ v, v ∈ views ↔ v ∈ accepting w.pool) :
      ∃ t, Naive w.policy w.catalog (w.schedule, w.pool)
        (({ Pass.start w.schedule w.pool w.catalog w.disturbances w.scored with views } :
          Pass).run w.policy).outbox.assignments
        (t, (({ Pass.start w.schedule w.pool w.catalog w.disturbances w.scored with views } :
          Pass).run w.policy).pool) ∧
        t.bare = (({ Pass.start w.schedule w.pool w.catalog w.disturbances w.scored with
          views } : Pass).run w.policy).schedule.bare := by
    obtain ⟨l, t, hnaive, ht, hl⟩ := Pass.run_naive hp (hsteady views hv) ho
    rw [hl]
    exact ⟨t, hnaive, ht⟩
  obtain ⟨t, hnaive, ht⟩ := hrun (accepting w.pool) fun _ => .rfl
  have hsole {l : List Assignment} {z : Schedule × Pool}
      (h : Naive w.policy w.catalog (w.schedule, w.pool) l z) :
      l = w.passed.outbox.assignments ∧ z.2 = w.passed.pool ∧
        z.1.bare = w.passed.schedule.bare := by
    obtain ⟨hl, rfl⟩ := h.unique hp hnaive
    exact ⟨hl, rfl, ht⟩
  refine ⟨⟨t, hnaive, ht⟩, hsole, fun token => ?_, fun hz => ?_, fun hz => ?_, fun hv => ?_,
    fun hq => ?_⟩
  · exact List.getLast?_concat ..
  · exact Candidate.existsUnique_best (hz.covers ho) hp
  · exact fun hl => Candidate.best_iff_foldl_choose (hz.covers ho) hp hl
  · obtain ⟨t', hnaive', ht'⟩ := hrun _ hv
    obtain ⟨hl, hpool, hbare⟩ := hsole hnaive'
    exact ⟨hl, hpool, ht'.symm.trans hbare⟩
  · exact Pass.reserves_of_steps hp (hsteady (accepting w.pool) fun _ => .rfl) ho hq

namespace Machine

variable {rule : Conduct} {policy policy' : Policy} {localNodes : List String} {withholds : Bool}
  {limit : Nat} {disturbances : List Disturbance} {l : List Command} {m : Machine}

/-- At every step of every run, whatever was asked, whatever clients answered and whatever disturbed
the passes before, a pass with any faithful policy that nothing disturbs does what the naive pass
does. -/
theorem Run.passesNaively
    (h : Run rule { World.fresh policy localNodes withholds limit with disturbances } l m)
    (hp : policy'.Faithful) :
    { m.world with policy := policy', disturbances := [] }.PassesNaively :=
  World.passesNaively_of_covers h.covers hp rfl

/-! ### A grid with two actions that wait and a worker that stands idle -/

/-- A task is submitted when there is no worker. -/
def standingBy : Machine :=
  asked (.fresh .fifo [] false 8) 0 (.submit (.single (.cpus 1) "h") .silent)

/-- And a more urgent one. -/
def pressing : Machine :=
  asked (standingBy.advance 8).world 1
    (.submit ((Submission.single (.cpus 1) "h").withPriority 1) .silent)

/-- A worker with two units is added behind the scheduler, and no pass follows. -/
def slippingIn : Machine :=
  asked (pressing.advance 8).world 2
    (.pool (.add (.permanent "n") (.cpus (1 + 1)) default))

theorem course_slippingIn :
    Course (.lively fun _ => True) { World.fresh .fifo [] false 8 with disturbances := [] }
      (moments 2 slippingIn ++ (moments 8 pressing ++ (moments 8 standingBy ++ [])))
      ⟨(slippingIn.advance 2).world, []⟩ :=
  ((Course.start.call 0 8 trivial (by decide +kernel)).call 1 8 trivial
    (by decide +kernel)).call 2 2 trivial (by decide +kernel)

/-- A pass binds the more urgent action first and then the other one. -/
theorem passesNaively_slippingIn :
    ({ (slippingIn.advance 2).world with policy := .loadBalancing, disturbances := [] } :
        World).passed.outbox.assignments.map (fun a => (a.action, a.worker.text)) =
          [(2, "n"), (1, "n")] ∧
      { (slippingIn.advance 2).world with
        policy := .loadBalancing, disturbances := [] }.PassesNaively := by
  obtain ⟨l, hl⟩ := course_slippingIn.run
  exact ⟨by decide +kernel, Run.passesNaively hl Policy.faithful_loadBalancing⟩

end Machine

end TaskGrid
