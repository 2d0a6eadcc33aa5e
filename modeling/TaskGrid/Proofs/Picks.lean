import Mathlib.Data.List.Induction
import TaskGrid.Proofs.Passes

/-!
# Passes are greedy

What a pass binds depends on the ready actions and on what is free on the workers that accept
actions, and on nothing else: it picks the candidate that ranks first, then the one that ranks
first among those that are left, until none is left.  This is said here without passes, views that
are kept up to date and reservations that may be refused (`Greedy`), and passes that nothing
disturbs are shown to do just that.

* `Candidate.Leads`: a candidate ranks first.
* `Greedy`, `Greedy.unique`: one pick after the other, and in one way only.
* `Pass.run_picks`: a pass binds what is picked.
-/

namespace TaskGrid

/-! ## Ranks -/

instance : Std.TransOrd Score :=
  inferInstanceAs (Std.TransCmp (compareLex (compareOn fun s : Score => s.fields)
    fun a b => compareOn (fun s : Score => s.action) b a))

namespace Rank

instance : Std.TransCmp cmp :=
  inferInstanceAs (Std.TransCmp (compareLex (compareOn fun r : Rank => r.score)
    (compareLex (fun a b => compareOn (fun r : Rank => r.seq) b a)
      fun a b => compareOn (fun r : Rank => r.implementation) b a)))

variable {a b c : Rank}

theorem better_iff : a.better b = true ↔ a.cmp b = .gt := beq_iff_eq

theorem better_trans (h : a.better b = true) (h' : b.better c = true) : a.better c = true :=
  better_iff.mpr (Std.TransCmp.gt_trans (better_iff.mp h) (better_iff.mp h'))

/-- Who is better than the best is better than all. -/
theorem better_of_not_better (h : a.better b = true) (h' : c.better b = false) :
    a.better c = true := by
  have hge : (b.cmp c).isGE = true := by
    rw [Std.OrientedCmp.isGE_iff_isLE, Ordering.isLE_iff_ne_gt]
    intro hgt
    rw [better_iff.mpr hgt] at h'
    cases h'
  exact better_iff.mpr (Std.TransCmp.gt_of_gt_of_isGE (better_iff.mp h) hge)

end Rank

open Pass (candidatesOn rank adjusted)

/-! ## Picking -/

/-- A candidate ranks first in a list: it is better than all before it, and none after it is
better. -/
def Candidate.Leads (policy : Policy) (c : Catalog) (l : List Candidate) (x : Candidate) : Prop :=
  ∃ l₁ l₂, l = l₁ ++ x :: l₂ ∧ (∀ y ∈ l₁, (rank policy c x).better (rank policy c y) = true) ∧
    ∀ y ∈ l₂, (rank policy c y).better (rank policy c x) = false

namespace Candidate

variable {policy : Policy} {c : Catalog} {l : List Candidate} {x y : Candidate}

/-- Only one candidate ranks first. -/
theorem Leads.unique (h : Leads policy c l x) (h' : Leads policy c l y) : x = y := by
  obtain ⟨l₁, l₂, rfl, hbefore, hafter⟩ := h
  obtain ⟨m₁, m₂, he, hbefore', hafter'⟩ := h'
  rcases List.append_eq_append_iff.mp he with ⟨k, hm, hl⟩ | ⟨k, hl, hm⟩
  · cases k with
    | nil => exact (List.cons.inj hl).1
    | cons z k =>
      obtain ⟨rfl, rfl⟩ := List.cons.inj hl
      have hyx := hbefore' x (by rw [hm]; simp)
      rw [hafter y (by simp)] at hyx
      cases hyx
  · cases k with
    | nil => exact (List.cons.inj hm).1.symm
    | cons z k =>
      obtain ⟨rfl, rfl⟩ := List.cons.inj hm
      have hxy := hbefore y (by rw [hl]; simp)
      rw [hafter' x (by simp)] at hxy
      cases hxy

/-- One more candidate at the end ranks first if it is better than the one that did. -/
theorem Leads.concat (h : Leads policy c l x) (y : Candidate) :
    Leads policy c (l ++ [y])
      (if (rank policy c y).better (rank policy c x) then y else x) := by
  obtain ⟨l₁, l₂, rfl, hbefore, hafter⟩ := h
  cases hb : (rank policy c y).better (rank policy c x) with
  | false =>
    refine ⟨l₁, l₂ ++ [y], by simp, hbefore, ?_⟩
    intro z hz
    rcases List.mem_append.mp hz with hz | hz
    · exact hafter z hz
    · exact List.mem_singleton.mp hz ▸ hb
  | true =>
    refine ⟨l₁ ++ x :: l₂, [], rfl, fun z hz => ?_, fun z hz => by cases hz⟩
    rcases List.mem_append.mp hz with hz | hz
    · exact Rank.better_trans hb (hbefore z hz)
    · rcases List.mem_cons.mp hz with rfl | hz
      · exact hb
      · exact Rank.better_of_not_better hb (hafter z hz)

end Candidate

/-- The best of a list is the candidate that ranks first. -/
theorem Pass.leads_of_foldl_choose (policy : Policy) (c : Catalog) (l : List Candidate) :
    l.foldl (choose policy c) none = none ∧ l = [] ∨
      ∃ x, l.foldl (choose policy c) none = some (rank policy c x, x) ∧
        Candidate.Leads policy c l x := by
  induction l using List.reverseRecOn with
  | nil => exact .inl ⟨rfl, rfl⟩
  | append_singleton l y ih =>
    rw [List.foldl_append, List.foldl_cons, List.foldl_nil]
    right
    rcases ih with ⟨hn, rfl⟩ | ⟨x, hx, hl⟩
    · rw [hn]
      exact ⟨y, rfl, [], [], rfl, fun z hz => (by cases hz), fun z hz => by cases hz⟩
    · rw [hx]
      refine ⟨_, ?_, hl.concat y⟩
      unfold choose
      dsimp only
      split <;> rfl

/-- The candidates of some actions on some workers: by action, then by worker, then by
implementation. -/
def fitting (ready : List Action) (views : List WorkerView) : List Candidate :=
  ready.flatMap fun a => views.flatMap (candidatesOn a)

/-- Candidates are picked one after the other, always the one that ranks first, until no action
fits on a worker.  The action of a pick is not picked again, and what it needs is not free any
more. -/
inductive Greedy (policy : Policy) (c : Catalog) :
    List Action → List WorkerView → List Candidate → Prop where
  /-- Nothing fits. -/
  | stop {ready : List Action} {views : List WorkerView} (nothing : fitting ready views = []) :
    Greedy policy c ready views []
  /-- A candidate is picked, which leaves `free` on its worker. -/
  | pick {ready : List Action} {views : List WorkerView} {x : Candidate} {free : Capacity}
      {picks : List Candidate} (leads : Candidate.Leads policy c (fitting ready views) x)
      (left : x.view.free.subtract x.implementation.requirement = .ok free) :
    Greedy policy c (ready.filter fun a => a.id ≠ x.action.id)
      (views.map (adjusted x.view.key free)) picks → Greedy policy c ready views (x :: picks)

/-- What is picked is determined. -/
theorem Greedy.unique {policy : Policy} {c : Catalog} {ready : List Action}
    {views : List WorkerView} {picks picks' : List Candidate}
    (h : Greedy policy c ready views picks) (h' : Greedy policy c ready views picks') :
    picks = picks' := by
  induction h generalizing picks' with
  | stop nothing =>
    cases h' with
    | stop _ => rfl
    | pick leads _ _ =>
      obtain ⟨l₁, l₂, he, -⟩ := leads
      rw [nothing] at he
      exact absurd he.symm (by simp)
  | pick leads left _ ih =>
    cases h' with
    | stop nothing =>
      obtain ⟨l₁, l₂, he, -⟩ := leads
      rw [nothing] at he
      exact absurd he.symm (by simp)
    | pick leads' left' hrest =>
      obtain rfl := leads.unique leads'
      rw [left] at left'
      obtain rfl := Except.ok.inj left'
      rw [ih hrest]

/-! ## What there is to pick from -/

/-- The ready actions, in order. -/
def Schedule.readyActions (s : Schedule) : List Action :=
  s.ready.toList.filterMap fun id => (s.actions.get? id).map Entry.action

theorem Pass.candidates_eq (s : Schedule) (views : List WorkerView) :
    candidates s views = fitting s.readyActions views := by
  unfold candidates fitting Schedule.readyActions
  induction s.ready.toList with
  | nil => rfl
  | cons id l ih =>
    rw [List.flatMap_cons, ih, List.filterMap_cons]
    cases s.actions.get? id with
    | none => rfl
    | some e => rw [Option.map_some, List.flatMap_cons]

/-- An action that is no longer ready is taken off the ready actions. -/
theorem Schedule.readyActions_of_erase {s t : Schedule} (hs : s.Sound) {id : Nat}
    (hready : t.ready = s.ready.erase id)
    (hother : ∀ j, j ≠ id → t.actions.get? j = s.actions.get? j) :
    t.readyActions = s.readyActions.filter fun a => a.id ≠ id := by
  have hnamed : ∀ j a, (s.actions.get? j).map Entry.action = some a → a.id = j := by
    intro j a ha
    obtain ⟨e, he, rfl⟩ := Option.map_eq_some_iff.mp ha
    exact hs.named (standing?_eq_some_iff.mpr ⟨e, he, rfl⟩)
  have herase : t.ready.toList = s.ready.toList.filter fun j => j ≠ id := by
    rw [hready]
    rfl
  unfold readyActions
  rw [herase]
  induction s.ready.toList with
  | nil => rfl
  | cons j l ih =>
    rw [List.filter_cons, List.filterMap_cons]
    by_cases hj : j = id
    · rw [if_neg (by simpa using hj), ih]
      cases ha : (s.actions.get? j).map Entry.action with
      | none => rfl
      | some a => rw [List.filter_cons, if_neg (by simpa [hj] using hnamed j a ha)]
    · rw [if_pos (by simpa using hj), List.filterMap_cons, hother j hj, ih]
      cases ha : (s.actions.get? j).map Entry.action with
      | none => rfl
      | some a => rw [List.filter_cons, if_pos (by simpa [hnamed j a ha] using hj)]

/-! ## What a pass binds -/

/-- A worker has something reserved for an action. -/
def Pool.Holds (p : Pool) (key : WorkerKey) (id : Nat) : Prop :=
  ∃ v need, p.worker? key = some v ∧ v.reservations.get? id = some need

theorem Schedule.Binds.holds {s t : Schedule} {p q : Pool} {x : Standing} {key : WorkerKey}
    {i : Implementation} (h : s.Binds p x key i t q) (k : WorkerKey) (j : Nat) :
    q.Holds k j ↔ p.Holds k j ∨ key = k ∧ x.action.id = j := by
  constructor
  · rintro ⟨u, need, hu, hn⟩
    obtain ⟨v, hv, -, -, hres⟩ := h.back hu
    rw [hres] at hn
    split at hn
    · next hnew => exact .inr ⟨hnew.1.symm, hnew.2.symm⟩
    · exact .inl ⟨v, need, hv, hn⟩
  · rintro (⟨v, need, hv, hn⟩ | ⟨rfl, rfl⟩)
    · obtain ⟨u, hu, hres⟩ := h.kept hv
      by_cases hnew : k = key ∧ j = x.action.id
      · exact ⟨u, i.requirement, hu, by rw [hres, if_pos hnew]⟩
      · exact ⟨u, need, hu, by rw [hres, if_neg hnew, hn]⟩
    · obtain ⟨w, -, hw, -⟩ := h.reserved
      obtain ⟨u, hu, hres⟩ := h.kept hw
      exact ⟨u, i.requirement, hu, by rw [hres, if_pos ⟨rfl, rfl⟩]⟩

namespace Pass

open Schedule (standing?_eq_some_iff)

/-- Between two states of a pass the picks were bound and nothing else was, and nothing else was
told to be. -/
structure Made (p q : Pass) (picks : List Candidate) : Prop where
  /-- What is reserved for the picks has been added. -/
  holds : ∀ key id, q.pool.Holds key id ↔
    p.pool.Holds key id ∨ ∃ x ∈ picks, x.view.key = key ∧ x.action.id = id
  /-- No other assignment is told. -/
  told : ∀ {m id key n}, (m, .assigned id key n) ∈ q.outbox.events →
    (m, .assigned id key n) ∈ p.outbox.events ∨ ∃ x ∈ picks, x.view.key = key ∧ x.action.id = id

variable {p q r : Pass} {policy : Policy} {picks picks' : List Candidate}

theorem Made.trans (h : p.Made q picks) (h' : q.Made r picks') : p.Made r (picks ++ picks') where
  holds key id := by
    rw [h'.holds, h.holds, or_assoc]
    simp only [List.mem_append, or_and_right, exists_or]
  told he := by
    rcases h'.told he with he | ⟨x, hx, hb⟩
    · rcases h.told he with he | ⟨x, hx, hb⟩
      · exact .inl he
      · exact .inr ⟨x, List.mem_append_left picks' hx, hb⟩
    · exact .inr ⟨x, List.mem_append_right picks hx, hb⟩

theorem actions_bind {x : Candidate} {free : Capacity} {pool : Pool} {e : Entry}
    (he : p.schedule.actions.get? x.action.id = some e) (j : Nat) (hj : j ≠ x.action.id) :
    (p.bind x free pool).schedule.actions.get? j = p.schedule.actions.get? j := by
  unfold bind
  dsimp only
  rw [he]
  exact SortedMap.get?_insert_of_ne _ _ hj

theorem told_bind {x : Candidate} {free : Capacity} {pool : Pool} {m : Monitor} {id : Nat}
    {key : WorkerKey} {n : Nat}
    (h : (m, .assigned id key n) ∈ (p.bind x free pool).outbox.events) :
    (m, .assigned id key n) ∈ p.outbox.events ∨ x.view.key = key ∧ x.action.id = id := by
  unfold bind Entry.emit at h
  dsimp only at h
  split at h
  · exact .inl h
  · split at h
    · exact .inl h
    · rcases List.mem_append.mp h with h | h
      · exact .inl h
      · cases List.mem_singleton.mp h
        exact .inr ⟨rfl, rfl⟩

/-- The best candidate of a steady pass ranks first. -/
theorem leads_of_best? (h : p.Steady) {x : Candidate} (hx : (p.best? policy).2 = some x) :
    Candidate.Leads policy p.catalog (fitting p.schedule.readyActions p.views) x := by
  rw [best?_of_calm policy h.calm] at hx
  obtain ⟨b, hb, rfl⟩ := Option.map_eq_some_iff.mp hx
  rw [← candidates_eq]
  rcases leads_of_foldl_choose policy p.catalog (candidates p.schedule p.views) with
    ⟨hn, -⟩ | ⟨x, hx, hl⟩
  · rw [hn] at hb
    cases hb
  · rw [hx] at hb
    exact Option.some_inj.mp hb ▸ hl

/-- A step of a steady pass makes one pick, and leaves what there is to pick from without it. -/
theorem step_made (h : p.Steady) {x : Candidate} (hx : (p.best? policy).2 = some x) :
    ∃ q free, p.step policy = (q, true) ∧ q.Steady ∧ p.Made q [x] ∧
      x.view.free.subtract x.implementation.requirement = .ok free ∧ q.catalog = p.catalog ∧
      q.schedule.readyActions = p.schedule.readyActions.filter (fun a => a.id ≠ x.action.id) ∧
      q.views = p.views.map (adjusted x.view.key free) ∧
      q.schedule.ready.size + 1 = p.schedule.ready.size := by
  obtain ⟨y, free, pool, hq, hleft, hact, hb, hs⟩ := step_of_steady h hx
  have hcount : (p.best? policy).1 =
      { p with scored := p.scored + (candidates p.schedule p.views).length } := by
    rw [best?_of_calm policy h.calm]
  have hid : y.action.id = x.action.id := by rw [hact]
  obtain ⟨e, he, -⟩ := standing?_eq_some_iff.mp hb.live
  have he' : (p.best? policy).1.schedule.actions.get? x.action.id = some e := by
    rw [hcount]
    exact hid ▸ he
  refine ⟨_, free, hq, hs, ⟨fun k j => ?_, fun {m id key n} ht => ?_⟩, hleft, ?_, ?_, ?_, ?_⟩
  · rw [hb.holds, hid]
    simp
  · rcases told_bind ht with ht | ht
    · rw [hcount] at ht
      exact .inl ht
    · exact .inr ⟨x, List.mem_singleton_self x, ht⟩
  · rw [(bind_frame free pool he').2.1, hcount]
  · refine Schedule.readyActions_of_erase h.sound (hid ▸ hb.ready) ?_
    intro j hj
    rw [actions_bind he' j hj, hcount]
  · rw [views_bind he', hcount]
  · rw [hb.ready]
    exact SortedSet.size_erase_add_one (h.sound.ready_iff.mpr ⟨y, hb.live, hb.state⟩)

/-- With more steps than there are ready actions, a steady pass makes all picks. -/
theorem steps_made (policy : Policy) (n : Nat) (h : p.Steady) (hn : p.schedule.ready.size < n) :
    ∃ picks, Greedy policy p.catalog p.schedule.readyActions p.views picks ∧
      p.Made (steps policy n p) picks := by
  induction n generalizing p with
  | zero => omega
  | succ n ih =>
    unfold steps
    cases hx : (p.best? policy).2 with
    | none =>
      have hnil := candidates_eq_nil_of_best? h.calm hx
      rw [candidates_eq] at hnil
      rw [step_of_best?_eq_none hx]
      refine ⟨[], .stop hnil, ?_⟩
      dsimp only
      rw [best?_of_calm policy h.calm]
      exact ⟨fun _ _ => by simp, fun ht => .inl ht⟩
    | some x =>
      obtain ⟨q, free, hq, hs, hmade, hleft, hcat, hready, hviews, hsize⟩ := step_made h hx
      obtain ⟨picks, hgreedy, hrest⟩ := ih hs (by omega)
      rw [hcat, hready, hviews] at hgreedy
      rw [hq]
      exact ⟨x :: picks, .pick (leads_of_best? h hx) hleft hgreedy, hmade.trans hrest⟩

theorem told_reportOne {views : List WorkerView} {s : Schedule} {o : Outbox} {i : Nat}
    {m : Monitor} {id : Nat} {key : WorkerKey} {n : Nat}
    (h : (m, .assigned id key n) ∈ (reportOne views s o i).2.events) :
    (m, .assigned id key n) ∈ o.events := by
  unfold reportOne Entry.emit at h
  split at h
  · exact h
  · dsimp only at h
    split at h
    · exact h
    · split at h
      · exact h
      · rcases List.mem_append.mp h with h | h
        · exact h
        · cases List.mem_singleton.mp h

theorem made_reportIneligible (p : Pass) : p.Made p.reportIneligible [] where
  holds key id := by
    show p.pool.Holds key id ↔ _
    simp
  told {m id key n} ht := by
    refine .inl <| List.foldlRecOn
      (motive := fun r : Schedule × Outbox => (m, .assigned id key n) ∈ r.2.events →
        (m, .assigned id key n) ∈ p.outbox.events)
      p.schedule.ready.toList (fun r i => reportOne (accepting p.pool) r.1 r.2 i)
      (fun ht => ht) ?_ ht
    intro r hr i _ ht
    exact hr (told_reportOne ht)

/-- A whole pass makes the picks, and no others. -/
theorem run_picks (policy : Policy) (h : p.Steady) :
    ∃ picks, Greedy policy p.catalog p.schedule.readyActions p.views picks ∧
      p.Made (p.run policy) picks := by
  obtain ⟨picks, hgreedy, hmade⟩ := steps_made policy p.bound h (by unfold bound; omega)
  refine ⟨picks, hgreedy, ?_⟩
  have hall := hmade.trans (made_reportIneligible (steps policy p.bound p))
  rw [List.append_nil] at hall
  exact hall

end Pass

end TaskGrid
