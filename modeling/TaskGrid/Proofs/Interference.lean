import TaskGrid.Proofs.Naive

/-!
# Passes while the pool changes

Whoever scores a candidate may change the pool meanwhile: workers join, shrink, are asked to leave,
are lost and come back under the same key.  A pass then works on views that no longer say what its
workers have.  It ends all the same, and what it binds is reserved on what is really there.

## Why a pass ends

Call a view *stale* if its worker is gone, was asked to leave, or does not have free what the view
says.  A reservation for a candidate that fits in view is refused only if the view is stale, and
the view is then dropped or taken again, after which it is not stale.  A binding leaves the view of
its worker up to date and uses up a ready action.  Only a disturbance makes views stale, and at
most one, because it is about one worker.  So the ready actions, the disturbances to come and the
stale views together become fewer with every step (`Pass.potential`).  A refusal may well open
candidates that were not there before; they do not count.

* `Pass.potential`, `Pass.Kept.step`: what every step uses up.
* `Pool.Grants`, `Pass.Assigns`: an assignment with the reservation that is made for it.
* `Pass.Tally`: what a pass did since it began.
* `Machine.Run.bindsSafely`: every pass in every state that a run comes to.
-/

namespace TaskGrid

/-! ## Reservations -/

/-- A worker that was not asked to leave has free what an action needs, and exactly that is reserved
for the action, which held nothing there. -/
structure Worker.Grants (w : Worker) (id : Nat) (need : Capacity) (w' : Worker) : Prop where
  /-- It accepts actions. -/
  accepts : w.removing = false
  /-- It has enough. -/
  fits : w.free.contains need = true
  /-- It held nothing for the action. -/
  unheld : w.reservations.get? id = none
  /-- What is needed, and nothing else, is not free any more. -/
  less : w.free.subtract need = .ok w'.free
  /-- It is reserved for the action, and that is all. -/
  reserved : w' = { w with free := w'.free, reservations := w.reservations.insert id need }

/-- A reservation is made only where all this is so. -/
theorem Worker.grants_of_reserve? {w w' : Worker} {id : Nat} {need : Capacity}
    (h : w.reserve? id need = some w') (unheld : w.reservations.get? id = none) :
    w.Grants id need w' := by
  obtain ⟨haccepts, free, hfree, rfl⟩ := Worker.reserve?_eq_some_iff.mp h
  exact ⟨haccepts, Capacity.contains_of_subtract hfree, unheld, hfree, rfl⟩

/-- From one pool to another the reservation for an assignment is made on its worker, and no other
worker changes. -/
def Pool.Grants (p : Pool) (a : Assignment) (q : Pool) : Prop :=
  ∃ w w', p.worker? a.worker = some w ∧ w.Grants a.action a.requirement w' ∧
    q = { p with workers := p.workers.insert a.worker w' }

/-! ## What an operation is about -/

namespace Pool

/-- The key that an operation is about. -/
def Operation.key : Operation → WorkerKey
  | .add key _ _ => key
  | .reduce key _ => key
  | .remove key _ => key
  | .lose key => key
  | .look key => key

/-- An operation leaves the workers under all other keys as they are. -/
theorem worker?_perform_of_ne (p : Pool) (c : Catalog) (o : Operation) {k : WorkerKey}
    (h : k ≠ o.key) : (p.perform c o).pool.worker? k = p.worker? k := by
  cases o with
  | add key offered adaptor => exact worker?_add_of_ne p offered adaptor h
  | reduce key amount =>
    have hr : (p.reduce key amount).2.worker? k = p.worker? k := by
      rcases reduce_cases p key amount with he | ⟨v, free, total, -, -, -, he⟩
      · rw [he]
      · rw [he]
        exact (worker?_of_insert rfl k).trans (if_neg h)
    unfold perform
    dsimp only
    generalize p.reduce key amount = r at hr ⊢
    obtain ⟨f | v, q⟩ := r <;> exact hr
  | remove key hook =>
    unfold perform
    dsimp only
    cases hr : p.requestRemoval? c key hook with
    | none => rfl
    | some r =>
      cases r with
      | left d =>
        obtain ⟨v, -, -, rfl⟩ := requestRemoval?_eq_left_iff.mp hr
        exact worker?_depart_of_ne p c (leaving v hook) false h
      | draining n q =>
        obtain ⟨v, -, -, -, rfl⟩ := requestRemoval?_eq_draining_iff.mp hr
        exact (worker?_of_insert rfl k).trans (if_neg h)
  | lose key =>
    unfold perform
    dsimp only
    cases hr : p.lose? c key with
    | none => rfl
    | some d =>
      obtain ⟨v, -, rfl⟩ := lose?_eq_some_iff.mp hr
      exact worker?_depart_of_ne p c v true h
  | look key => rfl

/-- No two workers are seen under one key. -/
theorem nodup_views (p : Pool) : (p.views.map (·.key)).Nodup := by
  have hperm : (p.views.map (·.key)).Perm p.workers.keys := by
    refine ((List.mergeSort_perm _ _).map _).trans (List.Perm.of_eq ?_)
    rw [List.map_map]
    rfl
  refine hperm.nodup_iff.mpr (List.pairwise_map.mpr (p.workers.sorted.imp fun {a b} hlt he => ?_))
  have heq : compare b.1 b.1 = .eq := Std.ReflCmp.compare_self
  rw [he, heq] at hlt
  cases hlt

end Pool

namespace Pass

open Schedule (Binds Restates)

/-! ## Stale views -/

/-- Whether a view promises what its worker does not have to give: the worker is gone or was asked
to leave, or something else is free on it. -/
def isStale (pool : Pool) (v : WorkerView) : Bool :=
  (pool.worker? v.key).all fun w => w.removing || w.free ≠ v.free

theorem isStale_eq_false_iff {pool : Pool} {v : WorkerView} :
    isStale pool v = false ↔
      ∃ w, pool.worker? v.key = some w ∧ w.removing = false ∧ w.free = v.free := by
  unfold isStale
  cases pool.worker? v.key <;> simp

/-- One worker that changes makes at most one view stale. -/
theorem countP_isStale_le {a b : Pool} {key : WorkerKey}
    (h : ∀ k, k ≠ key → b.worker? k = a.worker? k) {views : List WorkerView}
    (hn : (views.map (·.key)).Nodup) :
    views.countP (isStale b) ≤ views.countP (isStale a) + 1 := by
  have hsame {v : WorkerView} (hv : v.key ≠ key) : isStale b v = isStale a v := by
    rw [isStale, isStale, h _ hv]
  induction views with
  | nil => exact Nat.zero_le _
  | cons v l ih =>
    obtain ⟨hv, hl⟩ := List.nodup_cons.mp hn
    rw [List.countP_cons, List.countP_cons]
    by_cases hk : v.key = key
    · -- then no other view is that of the worker
      have hrest : l.countP (isStale b) = l.countP (isStale a) := by
        refine List.countP_congr fun u hu => ?_
        rw [hsame fun hc => hv (List.mem_map.mpr ⟨u, hu, hc.trans hk.symm⟩)]
      split <;> omega
    · have := ih hl
      rw [hsame hk]
      omega

/-- Where one worker changed and its view is up to date or dropped, fewer views are stale than
before if its view was. -/
theorem countP_isStale_lt {a b : Pool} {k : WorkerKey}
    (h : ∀ k', k' ≠ k → b.worker? k' = a.worker? k') {f : WorkerView → Option WorkerView}
    {views : List WorkerView} (hn : (views.map (·.key)).Nodup)
    (hkept : ∀ v, v.key ≠ k → f v = some v)
    (hnew : ∀ {v u}, v.key = k → f v = some u → isStale b u = false) :
    (views.filterMap f).countP (isStale b) ≤ views.countP (isStale a) ∧
      ∀ v ∈ views, v.key = k → isStale a v = true →
        (views.filterMap f).countP (isStale b) < views.countP (isStale a) := by
  have hsame {v : WorkerView} (hv : v.key ≠ k) : isStale b v = isStale a v := by
    rw [isStale, isStale, h _ hv]
  induction views with
  | nil => exact ⟨Nat.le_refl _, fun v hv => by cases hv⟩
  | cons v l ih =>
    obtain ⟨hv, hl⟩ := List.nodup_cons.mp hn
    obtain ⟨hle, hlt⟩ := ih hl
    by_cases hk : v.key = k
    · have hhead : ((v :: l).filterMap f).countP (isStale b) =
          (l.filterMap f).countP (isStale b) := by
        rw [List.filterMap_cons]
        cases hf : f v with
        | none => rfl
        | some u => rw [List.countP_cons, hnew hk hf, if_neg Bool.false_ne_true, Nat.add_zero]
      rw [hhead, List.countP_cons]
      refine ⟨Nat.le_trans hle (Nat.le_add_right _ _), fun u hu huk hus => ?_⟩
      rcases List.mem_cons.mp hu with rfl | hu
      · rw [if_pos hus]
        omega
      · exact absurd (List.mem_map.mpr ⟨u, hu, huk.trans hk.symm⟩) hv
    · rw [List.filterMap_cons_some (hkept v hk), List.countP_cons, List.countP_cons, hsame hk]
      refine ⟨Nat.add_le_add_right hle _, fun u hu huk hus => ?_⟩
      rcases List.mem_cons.mp hu with rfl | hu
      · exact absurd huk hk
      · exact Nat.add_lt_add_right (hlt u hu huk hus) _

/-! ## Scoring -/

/-- A pass under way, whatever happens to the pool. -/
structure Kept (p : Pass) : Prop where
  /-- What is reserved is reserved for bound actions. -/
  covers : Covers p.schedule p.pool
  /-- No two views are of one worker. -/
  keys : (p.views.map (·.key)).Nodup

/-- What every step of a pass uses up: ready actions, disturbances to come and stale views. -/
def potential (p : Pass) : Nat :=
  p.schedule.ready.size + p.disturbances.length + p.views.countP (isStale p.pool)

variable {p q : Pass} {policy : Policy} {x : Candidate}

/-- A disturbance changes nothing but the pool and the catalog, and makes at most one view stale. -/
theorem foldl_disturb (l : List Disturbance) (hn : (p.views.map (·.key)).Nodup) :
    (l.foldl disturb p).schedule = p.schedule ∧ (l.foldl disturb p).views = p.views ∧
      (l.foldl disturb p).outbox = p.outbox ∧
      (l.foldl disturb p).disturbances = p.disturbances ∧
      p.views.countP (isStale (l.foldl disturb p).pool) ≤
        p.views.countP (isStale p.pool) + l.length := by
  induction l generalizing p with
  | nil => exact ⟨rfl, rfl, rfl, rfl, Nat.le_refl _⟩
  | cons d l ih =>
    obtain ⟨hs, hv, ho, hd, hle⟩ := ih (p := p.disturb d) hn
    have hone : p.views.countP (isStale (p.disturb d).pool) ≤
        p.views.countP (isStale p.pool) + 1 :=
      countP_isStale_le
        (fun k hk => Pool.worker?_perform_of_ne p.pool p.catalog d.operation hk) hn
    refine ⟨hs, hv, ho, hd, Nat.le_trans hle ?_⟩
    rw [List.length_cons]
    exact Nat.le_trans (Nat.add_le_add_right hone _) (by omega)

/-- To score a candidate costs as many disturbances as it makes views stale, at least. -/
theorem disturbFor_frame (hn : (p.views.map (·.key)).Nodup) (x : Candidate) :
    (p.disturbFor x).schedule = p.schedule ∧ (p.disturbFor x).views = p.views ∧
      (p.disturbFor x).outbox = p.outbox ∧ (p.disturbFor x).potential ≤ p.potential := by
  unfold disturbFor
  generalize hdue : (fun d : Disturbance => d.due p.scored x.action x.view x.implementation) = due
  obtain ⟨hs, hv, ho, hd, hle⟩ := foldl_disturb (p := { p with
    disturbances := p.disturbances.filter fun d => !due d
    scored := p.scored + 1 }) (p.disturbances.filter due) hn
  refine ⟨hs, hv, ho, ?_⟩
  have hsplit := List.length_eq_length_filter_add (l := p.disturbances) due
  unfold potential
  rw [hs, hv, hd]
  dsimp only at hle ⊢
  omega

/-- To score all candidates changes neither the table nor the views, and uses up what it makes
stale. -/
theorem best?_frame (policy : Policy) (hn : (p.views.map (·.key)).Nodup) :
    (p.best? policy).1.schedule = p.schedule ∧ (p.best? policy).1.views = p.views ∧
      (p.best? policy).1.outbox = p.outbox ∧ (p.best? policy).1.potential ≤ p.potential :=
  List.foldlRecOn
    (motive := fun r : Pass × Option (Rank × Candidate) =>
      r.1.schedule = p.schedule ∧ r.1.views = p.views ∧ r.1.outbox = p.outbox ∧
        r.1.potential ≤ p.potential)
    (candidates p.schedule p.views) (consider policy) (b := (p, none))
    ⟨rfl, rfl, rfl, Nat.le_refl _⟩ fun r hr x _ => by
      obtain ⟨q, best⟩ := r
      obtain ⟨hqs, hqv, hqo, hq⟩ := hr
      obtain ⟨hs, hv, ho, hle⟩ := disturbFor_frame (p := q) (hqv ▸ hn) x
      unfold consider
      cases best <;>
        exact ⟨hs.trans hqs, hv.trans hqv, ho.trans hqo, Nat.le_trans hle hq⟩

/-- The pass when all candidates have been scored, and the best of them. -/
theorem Kept.best? (h : p.Kept) (policy : Policy) :
    (p.best? policy).1.Kept ∧
      ∀ x, (p.best? policy).2 = some x → x ∈ candidates p.schedule p.views := by
  obtain ⟨hs, hv, hcovers, hmem⟩ := stable_covers.best? policy h.covers
  exact ⟨⟨hs ▸ hcovers, hv ▸ h.keys⟩, hmem⟩

/-! ## Bindings and refusals -/

theorem key_adjusted (key : WorkerKey) (free : Capacity) (v : WorkerView) :
    (adjusted key free v).key = v.key := by
  unfold adjusted
  split <;> rfl

/-- Where a reservation is made, a candidate is bound, and there is a ready action less. -/
theorem Kept.bind (h : p.Kept) (hx : x ∈ candidates p.schedule p.views) {free : Capacity}
    {pool : Pool} (hr : p.pool.reserve? x.view.key x.action.id x.implementation.requirement =
      some (free, pool)) :
    (p.bind x free pool).Kept ∧ (p.bind x free pool).potential < p.potential ∧
      p.pool.Grants x.assignment (p.bind x free pool).pool ∧
      (p.bind x free pool).outbox.assignments = p.outbox.assignments ++ [x.assignment] ∧
      ∃ y, y.action.id = x.action.id ∧ Binds p.schedule p.pool y x.view.key x.implementation
        (p.bind x free pool).schedule (p.bind x free pool).pool := by
  obtain ⟨e, he, hready, hpool, hb⟩ := binds_of_reserve? h.covers.sound hx hr
  obtain ⟨w, w', hw, hw', hfree, hinsert⟩ := Pool.reserve?_eq_some_iff.mp hr
  obtain ⟨-, -, hcalm, hrest, -⟩ := bind_frame free pool he
  have hnamed : e.standing.action.id = x.action.id :=
    h.covers.sound.named (Schedule.standing?_eq_some_iff.mpr ⟨e, he, rfl⟩)
  have hid : x.action.id ∈ p.schedule.ready :=
    h.covers.sound.ready_iff.mpr ⟨e.standing, hnamed ▸ hb.live, hb.state⟩
  have hgrants := Worker.grants_of_reserve? hw' (h.covers.unheld hid hw)
  have hworker (k : WorkerKey) :
      pool.worker? k = if k = x.view.key then some w' else p.pool.worker? k :=
    Pool.worker?_of_insert (by rw [hinsert]) k
  refine ⟨⟨hpool.symm ▸ h.covers.binds hb, ?_⟩, ?_,
    ⟨w, w', hw, hgrants, hpool.trans hinsert⟩, (bind_outcome free pool he).2, e.standing, hnamed,
    hpool.symm ▸ hb⟩
  · have hkeys : (·.key) ∘ adjusted x.view.key free = (·.key) := funext (key_adjusted _ _)
    rw [views_bind he, List.map_map, hkeys]
    exact h.keys
  · have hsize := SortedSet.size_erase_add_one hid
    have hstale : (p.views.map (adjusted x.view.key free)).countP (isStale pool) ≤
        p.views.countP (isStale p.pool) := by
      rw [← List.filterMap_eq_map']
      refine (countP_isStale_lt (k := x.view.key)
        (fun k hk => (hworker k).trans (if_neg hk)) h.keys (fun v hv => ?_)
        fun {v u} hv hu => ?_).1
      · rw [adjusted, if_neg hv]
      · obtain rfl := Option.some_inj.mp hu
        refine isStale_eq_false_iff.mpr ⟨w', ?_, ?_, ?_⟩
        · rw [hworker, key_adjusted, if_pos hv]
        · rw [hgrants.reserved]
          exact hgrants.accepts
        · rw [adjusted, if_pos hv, hfree]
    unfold potential
    rw [hpool, hcalm, hrest, views_bind he]
    omega

/-- Where a reservation is refused, the view of the worker is dropped or taken again. -/
theorem revise_views (p : Pass) (x : Candidate) :
    ∃ f, p.revise x = { p with views := p.views.filterMap f } ∧
      (∀ v, v.key ≠ x.view.key → f v = some v) ∧
      ∀ {v u}, v.key = x.view.key → f v = some u → u.key = v.key ∧ isStale p.pool u = false := by
  have hdrop : ∃ f, { p with views := p.views.filter fun v => v.key ≠ x.view.key } =
      { p with views := p.views.filterMap f } ∧
      (∀ v, v.key ≠ x.view.key → f v = some v) ∧
      ∀ {v u}, v.key = x.view.key → f v = some u → u.key = v.key ∧ isStale p.pool u = false :=
    ⟨Option.guard fun v => v.key ≠ x.view.key, by rw [List.filterMap_eq_filter],
      fun v hv => Option.guard_eq_some_iff.mpr ⟨rfl, decide_eq_true hv⟩,
      fun {v u} hv hu => absurd hv (of_decide_eq_true (Option.guard_eq_some_iff.mp hu).2)⟩
  unfold revise
  dsimp only
  cases hfresh : p.pool.view? x.view.key with
  | none => exact hdrop
  | some fresh =>
    dsimp only
    split
    · next hcond =>
      obtain ⟨w, hw, rfl⟩ := Option.map_eq_some_iff.mp hfresh
      rw [Bool.and_eq_true, Bool.not_eq_true', Bool.not_eq_true'] at hcond
      refine ⟨fun v => some (if v.key = x.view.key then w.view x.view.key else v),
        by rw [List.filterMap_eq_map'], fun v hv => congrArg some (if_neg hv),
        fun {v u} hv hu => ?_⟩
      obtain rfl := (if_pos hv).symm.trans (Option.some_inj.mp hu)
      exact ⟨hv.symm, isStale_eq_false_iff.mpr ⟨w, hw, hcond.1, rfl⟩⟩
    · exact hdrop

/-- A candidate whose reservation is refused fits in a stale view only. -/
theorem isStale_of_reserve?_eq_none
    (hfit : x.view.free.contains x.implementation.requirement = true)
    {pool : Pool}
    (hr : pool.reserve? x.view.key x.action.id x.implementation.requirement = none) :
    isStale pool x.view = true := by
  rw [← Bool.not_eq_false, isStale_eq_false_iff]
  rintro ⟨w, hw, hacc, hfree⟩
  have hw' : w.reserve? x.action.id x.implementation.requirement = some _ :=
    Worker.reserve?_eq_some_iff.mpr ⟨hacc, _, Capacity.subtract_of_contains (hfree ▸ hfit), rfl⟩
  have hsome := Pool.reserve?_eq_some_iff.mpr ⟨w, _, hw, hw', rfl, rfl⟩
  rw [hr] at hsome
  cases hsome

/-- Where a reservation is refused, there is a stale view less. -/
theorem Kept.revise (h : p.Kept) (hx : x ∈ candidates p.schedule p.views)
    (hr : p.pool.reserve? x.view.key x.action.id x.implementation.requirement = none) :
    (p.revise x).Kept ∧ (p.revise x).potential < p.potential := by
  obtain ⟨-, hview, -, hfit⟩ := (mem_candidates h.covers.sound).mp hx
  obtain ⟨f, hf, hother, hown⟩ := revise_views p x
  rw [hf]
  refine ⟨⟨h.covers, ?_⟩, ?_⟩
  · -- the keys of the views that are left are keys of views that there were
    have hsub : ((p.views.filterMap f).map (·.key)).Sublist (p.views.map (·.key)) := by
      generalize p.views = l
      induction l with
      | nil => exact List.Sublist.refl _
      | cons v l ih =>
        rw [List.filterMap_cons]
        cases hv : f v with
        | none => exact ih.cons _
        | some u =>
          have hkey : u.key = v.key := by
            by_cases hk : v.key = x.view.key
            · exact (hown hk hv).1
            · rw [hother v hk, Option.some_inj] at hv
              rw [hv]
          rw [List.map_cons, List.map_cons, hkey]
          exact ih.cons_cons _
    exact hsub.nodup h.keys
  · have hlt := (countP_isStale_lt (a := p.pool) (k := x.view.key) (fun _ _ => rfl) h.keys hother
      fun hv hu => (hown hv hu).2).2 x.view hview rfl (isStale_of_reserve?_eq_none hfit hr)
    exact Nat.add_lt_add_left hlt _

/-! ## Steps -/

/-- A step of a pass makes an assignment: it is that of a candidate, and after scoring exactly what
it requires is reserved in the pool. -/
structure Assigns (policy : Policy) (p : Pass) (a : Assignment) (q : Pass) : Prop where
  /-- It is a step. -/
  step : p.step policy = (q, true)
  /-- A ready action fits in view. -/
  candidate : ∃ x ∈ candidates p.schedule p.views, a = x.assignment
  /-- The reservation is made in the pool as it is after scoring. -/
  grants : (p.best? policy).1.pool.Grants a q.pool
  /-- The action is bound. -/
  binds : ∃ y, y.action.id = a.action ∧ Binds p.schedule (p.best? policy).1.pool y a.worker
    ⟨a.requirement, a.handler⟩ q.schedule q.pool
  /-- It is the last assignment that was made. -/
  last : q.outbox.assignments = p.outbox.assignments ++ [a]

/-- The best candidate is bound, or its worker looked at again. -/
theorem step_of_best?_eq_some (hx : (p.best? policy).2 = some x) : p.step policy =
    match (p.best? policy).1.pool.reserve? x.view.key x.action.id x.implementation.requirement with
    | some (free, pool) => ((p.best? policy).1.bind x free pool, true)
    | none => ((p.best? policy).1.revise x, true) := by
  unfold Pass.step
  generalize p.best? policy = r at hx ⊢
  obtain ⟨q, best⟩ := r
  cases hx
  rfl

/-- Where there is a candidate, a step makes an assignment or only looks at the workers again.  It
uses something up. -/
theorem Kept.step (h : p.Kept) (policy : Policy) :
    p.step policy = ((p.best? policy).1, false) ∨
      ∃ q, p.step policy = (q, true) ∧ q.Kept ∧ q.potential < p.potential ∧
        ((∃ a, p.Assigns policy a q) ∨ q.schedule = p.schedule ∧ q.outbox = p.outbox) := by
  obtain ⟨hs, hv, ho, hle⟩ := best?_frame policy h.keys
  obtain ⟨hkept, hmem⟩ := h.best? policy
  cases hx : (p.best? policy).2 with
  | none => exact .inl (step_of_best?_eq_none hx)
  | some x =>
    refine .inr ?_
    have hcand := hmem x hx
    have hcand' : x ∈ candidates (p.best? policy).1.schedule (p.best? policy).1.views := by
      rw [hs, hv]
      exact hcand
    have hstep := step_of_best?_eq_some hx
    cases hr : (p.best? policy).1.pool.reserve? x.view.key x.action.id
        x.implementation.requirement with
    | none =>
      rw [hr] at hstep
      obtain ⟨hq, hlt⟩ := hkept.revise hcand' hr
      obtain ⟨views, hviews⟩ := (p.best? policy).1.revise_eq x
      refine ⟨_, hstep, hq, Nat.lt_of_lt_of_le hlt hle, .inr ?_⟩
      rw [hviews]
      exact ⟨hs, ho⟩
    | some r =>
      obtain ⟨free, pool⟩ := r
      rw [hr] at hstep
      obtain ⟨hq, hlt, hgrants, hlast, y, hy, hb⟩ := hkept.bind hcand' hr
      exact ⟨_, hstep, hq, Nat.lt_of_lt_of_le hlt hle,
        .inl ⟨x.assignment, hstep, ⟨x, hcand, rfl⟩, hgrants, ⟨y, hy, hs ▸ hb⟩, ho ▸ hlast⟩⟩

/-! ## Termination -/

/-- A pass comes to another by steps that found a candidate. -/
def Reaches (policy : Policy) : Pass → Pass → Prop :=
  Relation.ReflTransGen fun a b => a.step policy = (b, true)

/-- With more steps than it can make, a pass comes to a step that finds no candidate, and further
steps would change nothing. -/
theorem Kept.steps (policy : Policy) (n : Nat) (h : p.Kept) (hn : p.potential < n) :
    ∃ q, p.Reaches policy q ∧ q.Kept ∧ q.step policy = ((q.best? policy).1, false) ∧
      ∀ m, n ≤ m → steps policy m p = (q.best? policy).1 := by
  induction n generalizing p with
  | zero => omega
  | succ n ih =>
    rcases h.step policy with hstop | ⟨r, hr, hkept, hlt, -⟩
    · refine ⟨p, .refl, h, hstop, fun m hm => ?_⟩
      obtain ⟨m, rfl⟩ : ∃ k, m = k + 1 := ⟨m - 1, by omega⟩
      unfold Pass.steps
      rw [hstop]
    · obtain ⟨q, hq, hqkept, hstop, hsteps⟩ := ih hkept (by omega)
      refine ⟨q, .head hr hq, hqkept, hstop, fun m hm => ?_⟩
      obtain ⟨m, rfl⟩ : ∃ k, m = k + 1 := ⟨m - 1, by omega⟩
      unfold Pass.steps
      rw [hr]
      exact hsteps m (by omega)

/-- A pass is given enough steps. -/
theorem potential_lt_bound (p : Pass) : p.potential < p.bound := by
  have := List.countP_le_length (p := isStale p.pool) (l := p.views)
  unfold potential bound
  omega

/-! ## What a pass did since it began -/

/-- From `p`, which had made no assignment, a pass came to `q`. -/
structure Tally (policy : Policy) (p q : Pass) : Prop where
  /-- Who was ready is ready or assigned. -/
  ready_iff : ∀ id, id ∈ q.schedule.ready ↔
    id ∈ p.schedule.ready ∧ id ∉ q.outbox.assignments.map (·.action)
  /-- Nothing happened to who is ready. -/
  standing? : ∀ id ∈ q.schedule.ready, q.schedule.standing? id = p.schedule.standing? id
  /-- No action was assigned twice. -/
  once : (q.outbox.assignments.map (·.action)).Nodup
  /-- Every assignment was made by a step. -/
  made : ∀ a ∈ q.outbox.assignments, ∃ r s, p.Reaches policy r ∧ r.Assigns policy a s

theorem Tally.refl (policy : Policy) (hp : p.outbox.assignments = []) : p.Tally policy p := by
  refine ⟨fun id => ?_, fun _ _ => rfl, ?_, fun a ha => ?_⟩
  · rw [hp]
    exact (and_iff_left (List.not_mem_nil)).symm
  · rw [hp]
    exact List.nodup_nil
  · rw [hp] at ha
    cases ha

/-- Neither scoring nor reports count. -/
theorem Tally.congr {r : Pass} (h : p.Tally policy q) (ht : Restates q.schedule r.schedule)
    (ho : r.outbox.assignments = q.outbox.assignments) : p.Tally policy r where
  ready_iff id := by
    rw [ht.ready, ho]
    exact h.ready_iff id
  standing? id hid := (ht.standing? id).trans (h.standing? id (ht.ready ▸ hid))
  once := ho ▸ h.once
  made a ha := h.made a (ho ▸ ha)

/-- One more assignment. -/
theorem Tally.assigns {r : Pass} {a : Assignment} (h : p.Tally policy q)
    (hq : p.Reaches policy q) (ha : q.Assigns policy a r) (hsound : q.schedule.Sound) :
    p.Tally policy r := by
  obtain ⟨y, hy, hb⟩ := ha.binds
  have hready (id : Nat) : id ∈ r.schedule.ready ↔ id ∈ q.schedule.ready ∧ id ≠ a.action := by
    rw [hb.ready, SortedSet.mem_erase, hy]
  have hwas : a.action ∈ q.schedule.ready := hsound.ready_iff.mpr ⟨y, hy ▸ hb.live, hb.state⟩
  have hmap : r.outbox.assignments.map (·.action) =
      q.outbox.assignments.map (·.action) ++ [a.action] := by
    rw [ha.last, List.map_append, List.map_singleton]
  refine ⟨fun id => ?_, fun id hid => ?_, ?_, fun b hmem => ?_⟩
  · rw [hready, h.ready_iff, hmap, List.mem_append, List.mem_singleton, not_or, and_assoc]
  · obtain ⟨hid, hne⟩ := (hready id).mp hid
    rw [hb.standing?, hy, if_neg hne]
    exact h.standing? id hid
  · rw [hmap]
    refine List.nodup_append.mpr ⟨h.once, List.pairwise_singleton _ _, fun i hi j hj hij => ?_⟩
    rw [hij, List.mem_singleton.mp hj] at hi
    exact ((h.ready_iff _).mp hwas).2 hi
  · rw [ha.last, List.mem_append, List.mem_singleton] at hmem
    rcases hmem with hmem | rfl
    · exact h.made b hmem
    · exact ⟨q, r, hq, ha⟩

/-- However far a pass has come, its tally is right. -/
theorem Kept.tally (h : p.Kept) (hp : p.outbox.assignments = []) (hq : p.Reaches policy q) :
    q.Kept ∧ p.Tally policy q := by
  induction hq with
  | refl => exact ⟨h, .refl policy hp⟩
  | @tail q r hq hr ih =>
    obtain ⟨hkept, htally⟩ := ih
    rcases hkept.step policy with hstop | ⟨r', hr', hkept', -, hdone⟩
    · rw [hstop] at hr
      cases hr
    · obtain rfl := (Prod.mk.inj (hr.symm.trans hr')).1
      refine ⟨hkept', ?_⟩
      rcases hdone with ⟨a, ha⟩ | ⟨hs, ho⟩
      · exact htally.assigns hq ha hkept.covers.sound
      · exact htally.congr (hs ▸ .refl _) (congrArg _ ho)

/-! ## The whole pass -/

/-- A pass ends, and what it binds is safe, whatever happens to the pool meanwhile. -/
structure BindsSafely (policy : Policy) (p : Pass) : Prop where
  /-- It ends: the steps that it is given suffice to come to one that finds no candidate. -/
  ends : ∃ q, p.Reaches policy q ∧ (q.step policy).2 = false ∧
    p.run policy = (q.step policy).1.reportIneligible
  /-- More steps would change nothing. -/
  enough : ∀ n, p.bound ≤ n → steps policy n p = steps policy p.bound p
  /-- Every assignment was made by a step, which reserved exactly what it requires on its worker. -/
  granted : ∀ a ∈ (p.run policy).outbox.assignments,
    ∃ q r, p.Reaches policy q ∧ q.Assigns policy a r
  /-- No action is assigned twice. -/
  once : ((p.run policy).outbox.assignments.map (·.action)).Nodup
  /-- Only ready actions are assigned. -/
  ready : ∀ a ∈ (p.run policy).outbox.assignments, a.action ∈ p.schedule.ready
  /-- Who was ready and is not assigned is ready as before, and nothing is reserved for it. -/
  waiting : ∀ id ∈ p.schedule.ready, id ∉ (p.run policy).outbox.assignments.map (·.action) →
    id ∈ (p.run policy).schedule.ready ∧
      (p.run policy).schedule.standing? id = p.schedule.standing? id ∧
      (∃ x, p.schedule.standing? id = some x ∧ x.state = .ready ∧ x.binding = none) ∧
      ∀ {key w}, (p.run policy).pool.worker? key = some w → w.reservations.get? id = none

theorem kept_start {s : Schedule} {pool : Pool} (h : Covers s pool) (c : Catalog)
    (disturbances : List Disturbance) (n : Nat) : (start s pool c disturbances n).Kept where
  covers := h
  keys := (List.filter_sublist.map _).nodup pool.nodup_views

theorem Kept.binds (h : p.Kept) (hp : p.outbox.assignments = []) (policy : Policy) :
    p.BindsSafely policy := by
  obtain ⟨q, hq, hqkept, hstop, hsteps⟩ := h.steps policy p.bound p.potential_lt_bound
  have hrun : p.run policy = (q.best? policy).1.reportIneligible := by
    unfold run
    rw [hsteps p.bound (Nat.le_refl _)]
  obtain ⟨hs, -, ho, -⟩ := best?_frame policy hqkept.keys
  have htally : p.Tally policy (p.run policy) := by
    rw [hrun]
    refine ((h.tally hp hq).2.congr (hs ▸ .refl _) (congrArg _ ho)).congr
      (restates_reportIneligible _) (reportIneligible_outcome _).2
  have hcovers := stable_covers.run policy h.covers
  refine ⟨⟨q, hq, by rw [hstop], by rw [hrun, hstop]⟩,
    fun n hn => (hsteps n hn).trans (hsteps p.bound (Nat.le_refl _)).symm, htally.made, htally.once,
    fun a ha => ?_, fun id hid hnone => ?_⟩
  · obtain ⟨r, s, hr, hs⟩ := htally.made a ha
    obtain ⟨hkept, ht⟩ := h.tally hp hr
    obtain ⟨y, hy, hb⟩ := hs.binds
    exact ((ht.ready_iff _).mp (hkept.covers.sound.ready_iff.mpr ⟨y, hy ▸ hb.live, hb.state⟩)).1
  · have hready := (htally.ready_iff id).mpr ⟨hid, hnone⟩
    obtain ⟨x, hx, hstate⟩ := h.covers.sound.ready_iff.mp hid
    refine ⟨hready, htally.standing? id hready, ⟨x, hx, hstate, ?_⟩, hcovers.unheld hready⟩
    rw [← Option.not_isSome_iff_eq_none, h.covers.sound.bound_iff hx, hstate]
    exact Bool.false_ne_true

end Pass

namespace Machine

variable {rule : Conduct} {policy policy' : Policy} {localNodes : List String} {withholds : Bool}
  {limit : Nat} {disturbances disturbances' : List Disturbance} {l : List Command} {m : Machine}

/-- At every step of every run, whatever was asked, whatever clients answered and whatever disturbed
the passes before, a pass with any policy ends and binds safely, whatever operations on the pool
its scores are disturbed by. -/
theorem Run.bindsSafely
    (h : Run rule { World.fresh policy localNodes withholds limit with disturbances } l m) :
    (Pass.start m.world.schedule m.world.pool m.world.catalog disturbances'
      m.world.scored).BindsSafely policy' :=
  (Pass.kept_start h.covers m.world.catalog disturbances' m.world.scored).binds rfl policy'

/-- While the first candidate is scored the only worker is lost; while the second one is, it comes
back with half of what it had. -/
def comingBack : List Disturbance :=
  [⟨fun n _ _ _ => n == 0, .lose (.permanent "n"), "lost"⟩,
    ⟨fun n _ _ _ => n == 1, .add (.permanent "n") (.cpus 1) default, "back"⟩]

/-- In view there is room for both actions that wait, and one of them is bound. -/
theorem bindsSafely_comingBack :
    ((Pass.start (slippingIn.advance 2).world.schedule (slippingIn.advance 2).world.pool
        (slippingIn.advance 2).world.catalog comingBack
        (slippingIn.advance 2).world.scored).run .fifo).outbox.assignments.map
          (fun a => (a.action, a.worker.text)) = [(2, "n")] ∧
      (Pass.start (slippingIn.advance 2).world.schedule (slippingIn.advance 2).world.pool
        (slippingIn.advance 2).world.catalog comingBack
        (slippingIn.advance 2).world.scored).BindsSafely .fifo := by
  obtain ⟨l, hl⟩ := course_slippingIn.run
  exact ⟨by decide +kernel, Run.bindsSafely hl⟩

end Machine

end TaskGrid
