import Mathlib.Logic.Relation
import TaskGrid.Proofs.Table
import TaskGrid.Proofs.Workers

/-!
# Passes bind until nothing fits

A pass that nothing disturbs works on views which say of every worker exactly what the pool says.
Each of its steps then binds one ready action, and it ends when no ready action fits anywhere.

## The argument

While a pass is *steady* (`Pass.Steady`) its views are those of the workers that accept actions,
and nothing is reserved for a ready action.  So a candidate that fits in view fits in the pool, its
reservation is made, and the pass is steady again with one ready action less.  A pass is given more
steps than there are ready actions, and therefore its last step finds no candidate.

* `Schedule.Binds`: one ready action is bound to one worker.
* `Pass.step_of_steady`: a step of a steady pass.
* `Pass.run_of_steady`: a whole pass, and that it leaves nothing that fits.
* `Pass.run_preserves`: what bindings keep, passes keep.
* `Pass.Amid`: what a pass goes through, disturbed or not.
-/

namespace TaskGrid

namespace Schedule

/-! ## Tables with the same standings -/

/-- Two tables that differ at most in who is told what. -/
structure Restates (s t : Schedule) : Prop where
  /-- Every action has the same standing. -/
  standing? : ∀ i, t.standing? i = s.standing? i
  /-- The same actions are listed as ready. -/
  ready : t.ready = s.ready
  /-- The same identifier is next. -/
  nextId : t.nextId = s.nextId

theorem Restates.refl (s : Schedule) : Restates s s := ⟨fun _ => rfl, rfl, rfl⟩

theorem Restates.trans {s t u : Schedule} (h : Restates s t) (h' : Restates t u) : Restates s u :=
  ⟨fun i => (h'.standing? i).trans (h.standing? i), h'.ready.trans h.ready,
    h'.nextId.trans h.nextId⟩

theorem Restates.sound {s t : Schedule} (h : Restates s t) (hs : s.Sound) : t.Sound where
  named hx := hs.named (h.standing? _ ▸ hx)
  old hx := h.nextId ▸ hs.old (h.standing? _ ▸ hx)
  ready_iff {id} := by
    rw [h.ready, h.standing?]
    exact hs.ready_iff
  bound_iff hx := hs.bound_iff (h.standing? _ ▸ hx)

/-! ## Bindings -/

/-- One ready action `x` is bound to the worker `key`: what its implementation `i` requires is
reserved there. -/
structure Binds (s : Schedule) (p : Pool) (x : Standing) (key : WorkerKey) (i : Implementation)
    (t : Schedule) (q : Pool) : Prop where
  /-- The action is live. -/
  live : s.standing? x.action.id = some x
  /-- It is ready. -/
  state : x.state = .ready
  /-- It can be carried out in this way. -/
  mem : i ∈ x.action.task.implementations
  /-- The worker has the required capacity reserved. -/
  reserved : ∃ w w', p.worker? key = some w ∧ w.reserve? x.action.id i.requirement = some w' ∧
    q = { p with workers := p.workers.insert key w' }
  /-- The action is bound and no other standing changes. -/
  standing? : ∀ j, t.standing? j =
    if j = x.action.id then some { x with state := .assigned, binding := some key }
    else s.standing? j
  /-- The action is not listed as ready any more. -/
  ready : t.ready = s.ready.erase x.action.id
  /-- The same identifier is next. -/
  nextId : t.nextId = s.nextId

section Binds

variable {s t : Schedule} {p q : Pool} {x : Standing} {key : WorkerKey} {i : Implementation}

theorem Binds.sound (h : s.Binds p x key i t q) (hs : s.Sound) : t.Sound where
  named {id y} hy := by
    rw [h.standing?] at hy
    split at hy
    · next hid => rw [← Option.some_inj.mp hy, hid]
    · exact hs.named hy
  old {id y} hy := by
    rw [h.standing?] at hy
    rw [h.nextId]
    split at hy
    · next hid => exact hid ▸ hs.old h.live
    · exact hs.old hy
  ready_iff {id} := by
    rw [h.ready, h.standing?, SortedSet.mem_erase, hs.ready_iff]
    by_cases hid : id = x.action.id <;> simp [hid]
  bound_iff {id y} hy := by
    rw [h.standing?] at hy
    split at hy
    · rw [← Option.some_inj.mp hy]
      simp [ActionState.holdsCapacity]
    · exact hs.bound_iff hy

theorem Binds.nextSeq (h : s.Binds p x key i t q) : q.nextSeq = p.nextSeq := by
  obtain ⟨w, w', -, -, hq⟩ := h.reserved
  rw [hq]

/-- A binding changes one worker, which accepted actions, and reserves one thing more there. -/
theorem Binds.back (h : s.Binds p x key i t q) {k : WorkerKey} {u : Worker}
    (hu : q.worker? k = some u) :
    ∃ v, p.worker? k = some v ∧ u.seq = v.seq ∧ (k = key ∧ v.removing = false ∨ u = v) ∧
      ∀ j, u.reservations.get? j =
        if k = key ∧ j = x.action.id then some i.requirement else v.reservations.get? j := by
  obtain ⟨w, w', hw, hr, hq⟩ := h.reserved
  obtain ⟨hacc, free, -, hw'⟩ := Worker.reserve?_eq_some_iff.mp hr
  rw [Pool.worker?_of_insert (by rw [hq])] at hu
  by_cases hk : k = key
  · rw [if_pos hk, Option.some_inj] at hu
    refine ⟨w, hk ▸ hw, by rw [← hu, hw'], .inl ⟨hk, hacc⟩, ?_⟩
    intro j
    rw [← hu, hw', SortedMap.get?_insert]
    simp only [hk, true_and]
  · rw [if_neg hk] at hu
    refine ⟨u, hu, rfl, .inr rfl, ?_⟩
    intro j
    rw [if_neg fun hc => hk hc.1]

/-- No worker leaves by a binding. -/
theorem Binds.kept (h : s.Binds p x key i t q) {k : WorkerKey} {v : Worker}
    (hv : p.worker? k = some v) :
    ∃ u, q.worker? k = some u ∧ ∀ j, u.reservations.get? j =
      if k = key ∧ j = x.action.id then some i.requirement else v.reservations.get? j := by
  have hsome : ∃ u, q.worker? k = some u := by
    obtain ⟨w, w', -, -, hq⟩ := h.reserved
    rw [Pool.worker?_of_insert (by rw [hq])]
    split
    · exact ⟨w', rfl⟩
    · exact ⟨v, hv⟩
  obtain ⟨u, hu⟩ := hsome
  obtain ⟨v', hv', -, -, hres⟩ := h.back hu
  rw [hv, Option.some_inj] at hv'
  exact ⟨u, hu, hv' ▸ hres⟩

end Binds

end Schedule

namespace Pass

open Schedule (Binds Restates standing?_eq_some_iff standing?_of_insert)

/-! ## Choosing a candidate -/

/-- The better of a candidate and the best so far. -/
def choose (policy : Policy) (c : Catalog) (best : Option (Rank × Candidate)) (x : Candidate) :
    Option (Rank × Candidate) :=
  match best with
  | none => some (rank policy c x, x)
  | some b => if (rank policy c x).better b.1 then some (rank policy c x, x) else some b

theorem disturbFor_of_calm {p : Pass} (h : p.disturbances = []) (x : Candidate) :
    p.disturbFor x = { p with scored := p.scored + 1 } := by
  unfold disturbFor
  obtain ⟨s, pool, c, d, n, views, o, i⟩ := p
  obtain rfl : d = [] := h
  rfl

/-- Without disturbances scoring only counts, and keeps the better candidate. -/
theorem foldl_consider_of_calm (policy : Policy) {p : Pass} (h : p.disturbances = [])
    (l : List Candidate) (best : Option (Rank × Candidate)) :
    l.foldl (consider policy) (p, best) =
      ({ p with scored := p.scored + l.length }, l.foldl (choose policy p.catalog) best) := by
  induction l generalizing p best with
  | nil => rfl
  | cons x l ih =>
    have hx : consider policy (p, best) x =
        ({ p with scored := p.scored + 1 }, choose policy p.catalog best x) := by
      unfold consider choose
      dsimp only
      rw [disturbFor_of_calm h]
      cases best with
      | none => rfl
      | some b => rfl
    rw [List.foldl_cons, hx, ih (by exact h), List.foldl_cons, List.length_cons,
      Nat.add_right_comm, Nat.add_assoc]

/-- The candidate that wins is the best so far or one of the list. -/
theorem mem_of_foldl_choose (policy : Policy) (c : Catalog) (l : List Candidate)
    (best : Option (Rank × Candidate)) {b : Rank × Candidate}
    (h : l.foldl (choose policy c) best = some b) :
    best = some b ∨ b.2 ∈ l ∧ b.1 = rank policy c b.2 := by
  induction l generalizing best with
  | nil => exact .inl h
  | cons x l ih =>
    rcases ih _ h with hb | ⟨hm, hr⟩
    · unfold choose at hb
      split at hb
      · rw [← Option.some_inj.mp hb]
        exact .inr ⟨List.mem_cons_self, rfl⟩
      · split at hb
        · rw [← Option.some_inj.mp hb]
          exact .inr ⟨List.mem_cons_self, rfl⟩
        · exact .inl hb
    · exact .inr ⟨List.mem_cons_of_mem x hm, hr⟩

/-- Somebody wins as soon as there is a candidate. -/
theorem isSome_foldl_choose (policy : Policy) (c : Catalog) (l : List Candidate)
    (best : Option (Rank × Candidate)) (h : best.isSome = true) :
    (l.foldl (choose policy c) best).isSome = true :=
  List.foldlRecOn (motive := fun b => Option.isSome b = true) l _ h fun b _ x _ => by
    unfold choose
    split
    · rfl
    · split <;> rfl

theorem best?_of_calm (policy : Policy) {p : Pass} (h : p.disturbances = []) :
    p.best? policy =
      ({ p with scored := p.scored + (candidates p.schedule p.views).length },
        ((candidates p.schedule p.views).foldl (choose policy p.catalog) none).map Prod.snd) := by
  unfold best?
  rw [foldl_consider_of_calm policy h]

theorem mem_of_best? {policy : Policy} {p : Pass} (h : p.disturbances = []) {x : Candidate}
    (hx : (p.best? policy).2 = some x) : x ∈ candidates p.schedule p.views := by
  rw [best?_of_calm policy h] at hx
  obtain ⟨b, hb, rfl⟩ := Option.map_eq_some_iff.mp hx
  rcases mem_of_foldl_choose policy _ _ none hb with hn | ⟨hm, -⟩
  · cases hn
  · exact hm

theorem candidates_eq_nil_of_best? {policy : Policy} {p : Pass} (h : p.disturbances = [])
    (hx : (p.best? policy).2 = none) : candidates p.schedule p.views = [] := by
  rw [best?_of_calm policy h] at hx
  cases hl : candidates p.schedule p.views with
  | nil => rfl
  | cons x l =>
    rw [hl, Option.map_eq_none_iff, List.foldl_cons] at hx
    have hs := isSome_foldl_choose policy p.catalog l (choose policy p.catalog none x) rfl
    rw [hx] at hs
    cases hs

/-! ## Candidates -/

theorem mem_candidatesOn {a : Action} {v : WorkerView} {x : Candidate} :
    x ∈ candidatesOn a v ↔ x.action = a ∧ x.view = v ∧
      a.task.implementations[x.index]? = some x.implementation ∧
      v.free.contains x.implementation.requirement = true := by
  unfold candidatesOn
  simp only [List.mem_filterMap, Option.ite_none_right_eq_some, Option.some.injEq]
  constructor
  · rintro ⟨⟨i, n⟩, hi, hf, rfl⟩
    exact ⟨rfl, rfl, List.mem_zipIdx_iff_getElem?.mp hi, hf⟩
  · rintro ⟨rfl, rfl, hi, hf⟩
    exact ⟨(x.implementation, x.index), List.mem_zipIdx_iff_getElem?.mpr hi, hf, rfl⟩

/-- The candidates of a table in order: a ready action, a worker in view, and an implementation
that fits there. -/
theorem mem_candidates {s : Schedule} (hs : s.Sound) {views : List WorkerView} {x : Candidate} :
    x ∈ candidates s views ↔
      (∃ y, s.standing? x.action.id = some y ∧ y.state = .ready ∧ y.action = x.action) ∧
        x.view ∈ views ∧ x.action.task.implementations[x.index]? = some x.implementation ∧
        x.view.free.contains x.implementation.requirement = true := by
  unfold candidates
  rw [List.mem_flatMap]
  constructor
  · rintro ⟨id, hid, hx⟩
    cases he : s.actions.get? id with
    | none =>
      rw [he] at hx
      cases hx
    | some e =>
      rw [he] at hx
      obtain ⟨v, hv, hx⟩ := List.mem_flatMap.mp hx
      obtain ⟨ha, rfl, hi, hf⟩ := mem_candidatesOn.mp hx
      have hst : s.standing? id = some e.standing := standing?_eq_some_iff.mpr ⟨e, he, rfl⟩
      have hnamed : x.action.id = id := by
        rw [ha]
        exact hs.named hst
      obtain ⟨y, hy, hr⟩ := hs.ready_iff.mp hid
      rw [hst] at hy
      obtain rfl := Option.some_inj.mp hy
      exact ⟨⟨e.standing, hnamed ▸ hst, hr, ha.symm⟩, hv, ha ▸ hi, hf⟩
  · rintro ⟨⟨y, hy, hr, ha⟩, hv, hi, hf⟩
    obtain ⟨e, he, rfl⟩ := standing?_eq_some_iff.mp hy
    have hact : x.action = e.action := ha.symm
    refine ⟨x.action.id, hs.ready_iff.mpr ⟨e.standing, hy, hr⟩, ?_⟩
    rw [he]
    exact List.mem_flatMap.mpr ⟨x.view, hv, mem_candidatesOn.mpr ⟨hact, rfl, hact ▸ hi, hf⟩⟩

/-! ## Steady passes -/

/-- A pass that nothing disturbs and whose views are up to date. -/
structure Steady (p : Pass) : Prop where
  /-- No disturbance is to come. -/
  calm : p.disturbances = []
  /-- The table is in order. -/
  sound : p.schedule.Sound
  /-- The views are those of the workers that accept actions. -/
  mem_views : ∀ v, v ∈ p.views ↔ v ∈ accepting p.pool
  /-- Nothing is reserved for a ready action. -/
  unheld : ∀ {id}, id ∈ p.schedule.ready → ∀ {key w}, p.pool.worker? key = some w →
    w.reservations.get? id = none

variable {p : Pass} {policy : Policy}

theorem steady_start {s : Schedule} {pool : Pool} (hs : s.Sound)
    (hu : ∀ {id}, id ∈ s.ready → ∀ {key w}, pool.worker? key = some w →
      w.reservations.get? id = none) (c : Catalog) (n : Nat) : (start s pool c [] n).Steady :=
  ⟨rfl, hs, fun _ => .rfl, hu⟩

/-- The view of a worker after `free` was left on it by one more reservation, if it is `key`. -/
def adjusted (key : WorkerKey) (free : Capacity) (v : WorkerView) : WorkerView :=
  if v.key = key then { v with free, queueDepth := v.queueDepth + 1 } else v

theorem views_bind {x : Candidate} {free : Capacity} {pool : Pool} {e : Entry}
    (he : p.schedule.actions.get? x.action.id = some e) :
    (p.bind x free pool).views = p.views.map (adjusted x.view.key free) := by
  unfold bind
  dsimp only
  rw [he]
  rfl

/-- A binding takes the action off the list of ready ones and binds it in the table. -/
theorem bind_frame {x : Candidate} (free : Capacity) (pool : Pool) {e : Entry}
    (he : p.schedule.actions.get? x.action.id = some e) :
    (p.bind x free pool).pool = pool ∧ (p.bind x free pool).catalog = p.catalog ∧
      (p.bind x free pool).disturbances = p.disturbances ∧
      (p.bind x free pool).schedule.ready = p.schedule.ready.erase x.action.id ∧
      (p.bind x free pool).schedule.nextId = p.schedule.nextId ∧
      ∀ j, (p.bind x free pool).schedule.standing? j = if j = x.action.id then
        some { e.standing with state := .assigned, binding := some x.view.key }
        else p.schedule.standing? j := by
  unfold bind
  dsimp only
  rw [he]
  refine ⟨rfl, rfl, rfl, rfl, rfl, ?_⟩
  intro j
  rw [standing?_of_insert rfl, Entry.standing_emit]
  rfl

/-- The views of the accepting workers follow a reservation. -/
theorem mem_accepting_of_reserve {a b : Pool} {key : WorkerKey} {w w' : Worker} {id : Nat}
    {need : Capacity} (hw : a.worker? key = some w) (hr : w.reserve? id need = some w')
    (hnew : w.reservations.get? id = none)
    (hb : ∀ k, b.worker? k = if k = key then some w' else a.worker? k) (v : WorkerView) :
    v ∈ accepting b ↔ ∃ u ∈ accepting a, adjusted key w'.free u = v := by
  obtain ⟨hacc, free, -, hw'⟩ := Worker.reserve?_eq_some_iff.mp hr
  have hacc' : w'.removing = false := by
    rw [hw']
    exact hacc
  have hview : adjusted key w'.free (w.view key) = w'.view key := by
    rw [hw', adjusted, if_pos (show (w.view key).key = key from rfl), Worker.view, Worker.view,
      SortedMap.size_insert_of_get?_none need hnew]
  constructor
  · intro hv
    obtain ⟨u, hu, hur, huv⟩ := mem_accepting.mp hv
    rw [hb] at hu
    by_cases hk : v.key = key
    · rw [if_pos hk] at hu
      refine ⟨w.view key, mem_accepting.mpr ⟨w, hw, hacc, rfl⟩, ?_⟩
      rw [hview, huv, ← Option.some_inj.mp hu, hk]
    · rw [if_neg hk] at hu
      exact ⟨v, mem_accepting.mpr ⟨u, hu, hur, huv⟩, if_neg hk⟩
  · rintro ⟨u, hu, rfl⟩
    obtain ⟨y, hy, hyr, hyu⟩ := mem_accepting.mp hu
    by_cases hk : u.key = key
    · rw [hk, hw] at hy
      rw [hyu, hk, ← Option.some_inj.mp hy, hview]
      refine mem_accepting.mpr ⟨w', ?_, hacc', rfl⟩
      rw [hb]
      exact if_pos rfl
    · rw [adjusted, if_neg hk]
      refine mem_accepting.mpr ⟨y, ?_, hyr, hyu⟩
      rw [hb, if_neg hk]
      exact hy

/-- A candidate of a steady pass fits in the pool, and so it is bound. -/
theorem binds_of_mem_candidates (h : p.Steady) {x : Candidate}
    (hx : x ∈ candidates p.schedule p.views) :
    ∃ y free pool, p.pool.reserve? x.view.key x.action.id x.implementation.requirement =
        some (free, pool) ∧ x.view.free.subtract x.implementation.requirement = .ok free ∧
      y.action = x.action ∧
      Binds p.schedule p.pool y x.view.key x.implementation (p.bind x free pool).schedule pool ∧
      (p.bind x free pool).Steady := by
  obtain ⟨⟨y, hy, hready, hact⟩, hv, hi, hfit⟩ := (mem_candidates h.sound).mp hx
  obtain ⟨w, hw, hacc, hview⟩ := mem_accepting.mp ((h.mem_views x.view).mp hv)
  have hid : x.action.id ∈ p.schedule.ready := h.sound.ready_iff.mpr ⟨y, hy, hready⟩
  have hnew : w.reservations.get? x.action.id = none := h.unheld hid hw
  have hfree : w.free.contains x.implementation.requirement = true := by
    rw [hview] at hfit
    exact hfit
  obtain ⟨w', hr⟩ : ∃ w', w.reserve? x.action.id x.implementation.requirement = some w' :=
    ⟨_, Worker.reserve?_eq_some_iff.mpr ⟨hacc, _, Capacity.subtract_of_contains hfree, rfl⟩⟩
  have hleft : x.view.free.subtract x.implementation.requirement = .ok w'.free := by
    obtain ⟨-, free, hs, hw'⟩ := Worker.reserve?_eq_some_iff.mp hr
    rw [hview, hw']
    exact hs
  have hres : p.pool.reserve? x.view.key x.action.id x.implementation.requirement =
      some (w'.free, { p.pool with workers := p.pool.workers.insert x.view.key w' }) :=
    Pool.reserve?_eq_some_iff.mpr ⟨w, w', hw, hr, rfl, rfl⟩
  obtain ⟨e, he, rfl⟩ := standing?_eq_some_iff.mp hy
  have hact' : e.action = x.action := hact
  obtain ⟨hpool, -, hcalm, hready', hnext, hst⟩ :=
    bind_frame w'.free { p.pool with workers := p.pool.workers.insert x.view.key w' } he
  have hb : Binds p.schedule p.pool e.standing x.view.key x.implementation
      (p.bind x w'.free { p.pool with workers := p.pool.workers.insert x.view.key w' }).schedule
      { p.pool with workers := p.pool.workers.insert x.view.key w' } := by
    have hlive : e.standing.action.id = x.action.id := by rw [← hact]
    refine ⟨hlive ▸ hy, hready, ?_, ⟨w, w', hw, hlive ▸ hr, rfl⟩, hlive ▸ hst, hlive ▸ hready',
      hnext⟩
    rw [hact]
    exact List.mem_of_getElem? hi
  refine ⟨e.standing, w'.free, _, hres, hleft, hact, hb, hcalm.trans h.calm, hb.sound h.sound,
    fun v => ?_, fun {id} hid' {key u} hu => ?_⟩
  · rw [views_bind he, hpool, List.mem_map,
      mem_accepting_of_reserve hw hr hnew (Pool.worker?_of_insert rfl)]
    simp only [h.mem_views]
  · rw [hready', SortedSet.mem_erase] at hid'
    rw [hpool, Pool.worker?_of_insert rfl] at hu
    split at hu
    · obtain ⟨-, free, -, hw'⟩ := Worker.reserve?_eq_some_iff.mp hr
      rw [← Option.some_inj.mp hu, hw', SortedMap.get?_insert_of_ne _ _ hid'.2]
      exact h.unheld hid'.1 hw
    · exact h.unheld hid'.1 hu

/-! ## Steps -/

/-- One ready action is bound somewhere. -/
def Places (a b : Schedule × Pool) : Prop := ∃ x key i, Binds a.1 a.2 x key i b.1 b.2

/-- Without a candidate a pass is over. -/
theorem step_of_best?_eq_none (hx : (p.best? policy).2 = none) :
    p.step policy = ((p.best? policy).1, false) := by
  unfold step
  generalize p.best? policy = r at hx ⊢
  obtain ⟨q, best⟩ := r
  cases hx
  rfl

/-- A step of a steady pass binds its best candidate. -/
theorem step_of_steady (h : p.Steady) {x : Candidate} (hx : (p.best? policy).2 = some x) :
    ∃ y free pool, p.step policy = ((p.best? policy).1.bind x free pool, true) ∧
      x.view.free.subtract x.implementation.requirement = .ok free ∧ y.action = x.action ∧
      Binds p.schedule p.pool y x.view.key x.implementation
        ((p.best? policy).1.bind x free pool).schedule
        ((p.best? policy).1.bind x free pool).pool ∧
      ((p.best? policy).1.bind x free pool).Steady := by
  have hmem := mem_of_best? h.calm hx
  have hcount : (p.best? policy).1 =
      { p with scored := p.scored + (candidates p.schedule p.views).length } := by
    rw [best?_of_calm policy h.calm]
  have hsteady : (p.best? policy).1.Steady := by
    rw [hcount]
    exact ⟨h.calm, h.sound, h.mem_views, h.unheld⟩
  have hmem' : x ∈ candidates (p.best? policy).1.schedule (p.best? policy).1.views := by
    rw [hcount]
    exact hmem
  obtain ⟨y, free, pool, hres, hleft, hact, hb, hq⟩ := binds_of_mem_candidates hsteady hmem'
  refine ⟨y, free, pool, ?_, hleft, hact, ?_, hq⟩
  · unfold step
    rw [show p.best? policy = ((p.best? policy).1, some x) from Prod.ext rfl hx]
    dsimp only
    rw [hres]
  · obtain ⟨e, he, -⟩ := standing?_eq_some_iff.mp hb.live
    have hid : y.action.id = x.action.id := by rw [hact]
    rw [(bind_frame free pool (hid ▸ he)).1]
    rw [hcount] at hb ⊢
    exact hb

/-- The steps of a steady pass bind one action after the other; with more steps than there are
ready actions no candidate is left. -/
theorem steps_of_steady (policy : Policy) (n : Nat) (h : p.Steady)
    (hn : p.schedule.ready.size < n) :
    (steps policy n p).Steady ∧
      Relation.ReflTransGen Places (p.schedule, p.pool)
        ((steps policy n p).schedule, (steps policy n p).pool) ∧
      candidates (steps policy n p).schedule (steps policy n p).views = [] := by
  induction n generalizing p with
  | zero => omega
  | succ n ih =>
    unfold steps
    cases hx : (p.best? policy).2 with
    | none =>
      have hnil := candidates_eq_nil_of_best? h.calm hx
      rw [step_of_best?_eq_none hx]
      dsimp only
      rw [best?_of_calm policy h.calm]
      exact ⟨⟨h.calm, h.sound, h.mem_views, h.unheld⟩, .refl, hnil⟩
    | some x =>
      obtain ⟨y, free, pool, hq, -, -, hb, hs⟩ := step_of_steady h hx
      have hsize : ((p.best? policy).1.bind x free pool).schedule.ready.size + 1 =
          p.schedule.ready.size := by
        rw [hb.ready]
        exact SortedSet.size_erase_add_one (h.sound.ready_iff.mpr ⟨y, hb.live, hb.state⟩)
      obtain ⟨hs', hp, hnil⟩ := ih hs (by omega)
      rw [hq]
      exact ⟨hs', .head ⟨y, _, _, hb⟩ hp, hnil⟩

/-! ## The whole pass -/

/-- No ready action fits on a worker that accepts actions. -/
def NothingFits (s : Schedule) (p : Pool) : Prop :=
  ∀ (id : Nat) (x : Standing) (key : WorkerKey) (w : Worker), s.standing? id = some x →
    x.state = .ready → p.worker? key = some w → w.removing = false →
    ∀ i ∈ x.action.task.implementations, w.free.contains i.requirement = false

theorem nothingFits_of_candidates_eq_nil (h : p.Steady)
    (hnil : candidates p.schedule p.views = []) : NothingFits p.schedule p.pool := by
  intro id x key w hx hready hw hacc i hi
  obtain ⟨n, hn⟩ := List.mem_iff_getElem?.mp hi
  rw [Bool.eq_false_iff]
  intro hfit
  have hmem : (⟨x.action, w.view key, n, i⟩ : Candidate) ∈ candidates p.schedule p.views := by
    refine (mem_candidates h.sound).mpr ⟨⟨x, ?_, hready, rfl⟩, ?_, hn, hfit⟩
    · rw [h.sound.named hx]
      exact hx
    · exact (h.mem_views _).mpr (mem_accepting.mpr ⟨w, hw, hacc, rfl⟩)
  rw [hnil] at hmem
  cases hmem

theorem restates_reportOne (views : List WorkerView) (s : Schedule) (o : Outbox) (id : Nat) :
    Restates s (reportOne views s o id).1 := by
  unfold reportOne
  cases he : s.actions.get? id with
  | none => exact .refl s
  | some x =>
    dsimp only
    split
    · exact .refl s
    · refine ⟨?_, rfl, rfl⟩
      intro i
      rw [standing?_of_insert rfl, Entry.standing_emit]
      split
      · next hi =>
        subst hi
        exact (standing?_eq_some_iff.mpr ⟨x, he, rfl⟩).symm
      · rfl

theorem restates_reportIneligible (p : Pass) :
    Restates p.schedule p.reportIneligible.schedule :=
  List.foldlRecOn (motive := fun r : Schedule × Outbox => Restates p.schedule r.1)
    p.schedule.ready.toList _ (.refl _) fun r hr id _ =>
      hr.trans (restates_reportOne (accepting p.pool) r.1 r.2 id)

/-- A whole pass: actions are bound one after the other until nothing fits, and then perhaps some
are told that no worker could ever carry them out. -/
theorem run_of_steady (policy : Policy) (h : p.Steady) :
    (p.run policy).disturbances = [] ∧ NothingFits (p.run policy).schedule (p.run policy).pool ∧
      ∃ t, Relation.ReflTransGen Places (p.schedule, p.pool) (t, (p.run policy).pool) ∧
        Restates t (p.run policy).schedule := by
  obtain ⟨hs, hp, hnil⟩ := steps_of_steady policy p.bound h (by unfold bound; omega)
  have hre := restates_reportIneligible (steps policy p.bound p)
  have hnone := nothingFits_of_candidates_eq_nil hs hnil
  refine ⟨hs.calm, ?_, _, hp, hre⟩
  intro id x key w hx
  exact hnone id x key w (hre.standing? id ▸ hx)

/-- What bindings keep, passes keep. -/
theorem run_preserves (policy : Policy) (h : p.Steady) {P : Schedule → Pool → Prop}
    (hp : P p.schedule p.pool)
    (hbind : ∀ {s a x key i t b}, s.Sound → P s a → Binds s a x key i t b → P t b)
    (hre : ∀ {s t a}, P s a → Restates s t → P t a) :
    (p.run policy).schedule.Sound ∧ P (p.run policy).schedule (p.run policy).pool := by
  obtain ⟨-, -, t, hpl, hrt⟩ := run_of_steady policy h
  have hpt : ∀ {b : Schedule × Pool}, Relation.ReflTransGen Places (p.schedule, p.pool) b →
      b.1.Sound ∧ P b.1 b.2 := by
    intro b hb
    induction hb with
    | refl => exact ⟨h.sound, hp⟩
    | tail _ hab ih =>
      obtain ⟨x, key, i, hbind'⟩ := hab
      exact ⟨hbind'.sound ih.1, hbind ih.1 ih.2 hbind'⟩
  obtain ⟨hts, htp⟩ := hpt hpl
  exact ⟨hrt.sound hts, hre htp hrt⟩

/-! ## What a pass goes through -/

/-- A pass that began as `p` is at some time as `q`. -/
inductive Amid (p : Pass) : Pass → Prop where
  /-- It begins. -/
  | start : p.Amid p
  /-- A candidate is scored, and the disturbances that are due are not to come any more. -/
  | score {q : Pass} (disturbances : List Disturbance) (scored : Nat) :
    p.Amid q → p.Amid { q with disturbances, scored }
  /-- A disturbance is carried out. -/
  | disturb {q : Pass} (d : Disturbance) : p.Amid q → p.Amid (q.disturb d)
  /-- A candidate is bound. -/
  | bind {q : Pass} {x : Candidate} {free : Capacity} {pool : Pool}
      (reserved : q.pool.reserve? x.view.key x.action.id x.implementation.requirement =
        some (free, pool)) :
    p.Amid q → p.Amid (q.bind x free pool)
  /-- The reservation for a candidate was refused. -/
  | revise {q : Pass} (x : Candidate) : p.Amid q → p.Amid (q.revise x)
  /-- Nothing is left to bind. -/
  | report {q : Pass} : p.Amid q → p.Amid q.reportIneligible

theorem Amid.trans {q r : Pass} (h : p.Amid q) (h' : q.Amid r) : p.Amid r := by
  induction h' with
  | start => exact h
  | score l n _ ih => exact ih.score l n
  | disturb d _ ih => exact ih.disturb d
  | bind reserved _ ih => exact ih.bind reserved
  | revise x _ ih => exact ih.revise x
  | report _ ih => exact ih.report

theorem amid_disturbFor (p : Pass) (x : Candidate) : p.Amid (p.disturbFor x) :=
  List.foldlRecOn (motive := fun q : Pass => p.Amid q) _ _ (Amid.start.score _ _)
    fun _ hq d _ => hq.disturb d

theorem amid_best? (policy : Policy) (p : Pass) : p.Amid (p.best? policy).1 :=
  List.foldlRecOn (motive := fun r : Pass × Option (Rank × Candidate) => p.Amid r.1)
    (candidates p.schedule p.views) _ .start fun r hr x _ => by
      obtain ⟨q, best⟩ := r
      unfold consider
      cases best with
      | none => exact hr.trans (amid_disturbFor q x)
      | some b => exact hr.trans (amid_disturbFor q x)

theorem amid_step (policy : Policy) (p : Pass) : p.Amid (p.step policy).1 := by
  have hb : p.Amid (p.best? policy).1 := amid_best? policy p
  unfold step
  generalize p.best? policy = r at hb ⊢
  obtain ⟨q, best⟩ := r
  cases best with
  | none => exact hb
  | some x =>
    dsimp only
    cases hr : q.pool.reserve? x.view.key x.action.id x.implementation.requirement with
    | none => exact hb.revise x
    | some r => exact hb.bind hr

theorem amid_steps (policy : Policy) (n : Nat) (p : Pass) : p.Amid (steps policy n p) := by
  induction n generalizing p with
  | zero => exact .start
  | succ n ih =>
    have hs : p.Amid (p.step policy).1 := amid_step policy p
    unfold steps
    generalize p.step policy = r at hs ⊢
    obtain ⟨q, more⟩ := r
    cases more with
    | false => exact hs
    | true => exact hs.trans (ih q)

theorem amid_run (policy : Policy) (p : Pass) : p.Amid (p.run policy) :=
  (amid_steps policy p.bound p).report

theorem drained_bind (p : Pass) (x : Candidate) (free : Capacity) (pool : Pool) :
    (p.bind x free pool).outbox.drained = p.outbox.drained := by
  unfold bind
  dsimp only
  split
  · rfl
  · exact Entry.drained_emit _ _ _

theorem drained_reportOne (views : List WorkerView) (s : Schedule) (o : Outbox) (id : Nat) :
    (reportOne views s o id).2.drained = o.drained := by
  unfold reportOne
  split
  · rfl
  · dsimp only
    split
    · rfl
    · exact Entry.drained_emit _ _ _

theorem drained_reportIneligible (p : Pass) :
    p.reportIneligible.outbox.drained = p.outbox.drained :=
  List.foldlRecOn (motive := fun r : Schedule × Outbox => r.2.drained = p.outbox.drained)
    p.schedule.ready.toList _ rfl fun r hr id _ =>
      (drained_reportOne (accepting p.pool) r.1 r.2 id).trans hr

/-- A refused reservation changes the views alone. -/
theorem revise_eq (p : Pass) (x : Candidate) : ∃ views, p.revise x = { p with views } := by
  unfold revise
  dsimp only
  split
  · exact ⟨_, rfl⟩
  · split <;> exact ⟨_, rfl⟩

/-- No pass lets a worker leave. -/
theorem Amid.drained {q : Pass} (h : p.Amid q) : q.outbox.drained = p.outbox.drained := by
  induction h with
  | start => rfl
  | score _ _ _ ih => exact ih
  | disturb _ _ ih => exact ih
  | bind _ _ ih => exact (drained_bind _ _ _ _).trans ih
  | @revise q x _ ih =>
    obtain ⟨views, hv⟩ := q.revise_eq x
    rw [hv]
    exact ih
  | report _ ih => exact (drained_reportIneligible _).trans ih

end Pass

end TaskGrid
