import TaskGrid.Proofs.Deeds

/-!
# Nobody waits for what is there

A blocked action waits for names, and it is listed under each of them.  Names are looked up once,
when the action is accepted, and crossed off when they are announced.  So it could wait for ever,
if a name became available without being announced, or if an announcement missed one who waits.

## The invariant

Between the moment when a name becomes available and the moment when it wakes those who wait for
it, the name is on the agenda.  With what is owed in this way, the invariant `Waits` holds at every
step of every run, whatever clients answer and whatever disturbs the passes: who is blocked misses
a name, who misses a name is listed under it, and a name that somebody misses is not available, or
waking it is owed.  Between calls nothing is owed.

* `Schedule.Sustains`, `Schedule.wake_back`, `Schedule.accept_back`: what operations do to those who
  wait.
* `Waits`: the invariant.
* `Machine.Reached.no_lost_wakeup`: between calls nobody waits for what is there.
-/

namespace TaskGrid

namespace Schedule

/-- The actions that are listed as waiting for a name. -/
def waiting (s : Schedule) (name : String) : SortedSet Nat := (s.blocked.get? name).getD .empty

/-! ## Operations that wake nobody -/

/-- From one table to another, nobody began to wait, nobody waits for anything else than before,
and those who are live are listed as before. -/
structure Sustains (s t : Schedule) : Prop where
  /-- Who is live was live, for the same action, and misses the same names. -/
  back : ∀ {id y}, t.actions.get? id = some y → ∃ x, s.actions.get? id = some x ∧
    y.action = x.action ∧ y.missing = x.missing ∧ (y.state = .blocked → x.state = .blocked)
  /-- Who is live is listed under the names under which it was listed. -/
  listed : ∀ {id y name}, t.actions.get? id = some y → id ∈ s.waiting name → id ∈ t.waiting name

variable {s t u : Schedule}

theorem Sustains.refl (s : Schedule) : s.Sustains s :=
  ⟨fun h => ⟨_, h, rfl, rfl, fun hb => hb⟩, fun _ h => h⟩

theorem Sustains.trans (h : s.Sustains t) (h' : t.Sustains u) : s.Sustains u := by
  refine ⟨fun hz => ?_, fun hz hid => ?_⟩
  · obtain ⟨y, hy, hact, hmiss, hst⟩ := h'.back hz
    obtain ⟨x, hx, hact', hmiss', hst'⟩ := h.back hy
    exact ⟨x, hx, hact.trans hact', hmiss.trans hmiss', fun hb => hst' (hst hb)⟩
  · obtain ⟨y, hy, -⟩ := h'.back hz
    exact h'.listed hz (h.listed hy hid)

/-- One entry is replaced by one that waits for the same, if it waits. -/
theorem sustains_of_insert {id : Nat} {x e : Entry} (hx : s.actions.get? id = some x)
    (ht : t.actions = s.actions.insert id e) (hb : t.blocked = s.blocked)
    (action : e.action = x.action) (missing : e.missing = x.missing)
    (state : e.state = .blocked → x.state = .blocked) : s.Sustains t := by
  refine ⟨fun {i y} hy => ?_, fun _ hid => by rw [waiting, hb]; exact hid⟩
  rw [ht, SortedMap.get?_insert] at hy
  split at hy
  · next hi =>
    rw [← Option.some_inj.mp hy]
    exact ⟨x, hi ▸ hx, action, missing, state⟩
  · exact ⟨y, hy, rfl, rfl, fun h => h⟩

/-- One entry is taken out, and who is left is listed as before. -/
theorem sustains_of_erase {id : Nat} (ht : t.actions = s.actions.erase id)
    (hb : ∀ {i name}, i ≠ id → i ∈ s.waiting name → i ∈ t.waiting name) : s.Sustains t := by
  have hback {i : Nat} {y : Entry} (hy : t.actions.get? i = some y) :
      i ≠ id ∧ s.actions.get? i = some y := by
    rw [ht, SortedMap.get?_erase] at hy
    split at hy
    · cases hy
    · next hi => exact ⟨hi, hy⟩
  exact ⟨fun hy => ⟨_, (hback hy).2, rfl, rfl, fun h => h⟩, fun hy => hb (hback hy).1⟩

theorem emit_frame (x : Entry) (e : Event) (o : Outbox) :
    (x.emit e o).1.action = x.action ∧ (x.emit e o).1.missing = x.missing ∧
      (x.emit e o).1.state = x.state := by
  unfold Entry.emit
  split <;> exact ⟨rfl, rfl, rfl⟩

theorem sustains_markRunning {id : Nat} (h : s.markRunning? id = some t) : s.Sustains t := by
  unfold markRunning? at h
  obtain ⟨e, he, h⟩ := Option.bind_eq_some_iff.mp h
  split at h
  · cases h
    exact sustains_of_insert he rfl rfl rfl rfl fun hb => by cases hb
  · cases h

@[simp] theorem waiting_remember (s : Schedule) (id : Nat) (last : ActionState) (name : String) :
    (s.remember id last).waiting name = s.waiting name := by
  unfold remember
  split <;> rfl

theorem sustains_abandonOne (key : WorkerKey) (s : Schedule) (o : Outbox) (id : Nat) :
    s.Sustains (abandonOne key s o id).1 := by
  unfold abandonOne
  split
  · exact .refl s
  · dsimp only
    split
    · refine sustains_of_erase (actions_remember _ _ _) fun _ hid => ?_
      rw [waiting_remember]
      exact hid
    · exact .refl s

theorem sustains_abandon (s : Schedule) (key : WorkerKey) (ids : List Nat) :
    s.Sustains (s.abandon key ids).1 :=
  List.foldlRecOn (motive := fun r : Schedule × Outbox => s.Sustains r.1) ids _ (.refl s)
    fun r hr id _ => hr.trans (sustains_abandonOne key r.1 r.2 id)

theorem mem_waiting_unblock {id i : Nat} {name n : String} (h : i ≠ id) :
    i ∈ (s.unblock id name).waiting n ↔ i ∈ s.waiting n := by
  unfold unblock waiting
  cases hb : s.blocked.get? name with
  | none => exact .rfl
  | some ids =>
    dsimp only
    by_cases hn : n = name
    · subst hn
      rw [hb, Option.getD_some]
      have hleft : i ∈ ids.erase id ↔ i ∈ ids := SortedSet.mem_erase.trans (and_iff_left h)
      split
      · next hempty =>
        rw [SortedMap.get?_erase_self, Option.getD_none, ← hleft]
        exact iff_of_false (SortedSet.not_mem_empty i) (SortedSet.isEmpty_iff.mp hempty i)
      · rw [SortedMap.get?_insert_self, Option.getD_some]
        exact hleft
    · split
      · rw [SortedMap.get?_erase_of_ne _ hn]
      · rw [SortedMap.get?_insert_of_ne _ _ hn]

theorem sustains_conclude (s : Schedule) (p : Pool) (x : Entry) (events : List Event)
    (last : ActionState) : s.Sustains (s.conclude p x events last).1 := by
  refine sustains_of_erase (conclude_frame s p x events last).1 fun {i name} hi hid => ?_
  unfold conclude unqueue
  dsimp only
  rw [waiting_remember]
  exact List.foldlRecOn (motive := fun u : Schedule => i ∈ u.waiting name) x.missing.toList _ hid
    fun u hu n _ => (mem_waiting_unblock hi).mpr hu

/-! ## Accepting and waking -/

theorem mem_waiting_enqueue {id i : Nat} {names : List String} {n : String} :
    i ∈ (s.enqueue id names).waiting n ↔ i = id ∧ n ∈ names ∨ i ∈ s.waiting n := by
  induction names generalizing s with
  | nil => simp [enqueue, waiting]
  | cons name names ih =>
    let one : Schedule :=
      { s with blocked := s.blocked.insert name ((s.waiting name).insert id) }
    have hstep : s.enqueue id (name :: names) = one.enqueue id names := rfl
    have hone : i ∈ one.waiting n ↔ i = id ∧ n = name ∨ i ∈ s.waiting n := by
      show i ∈ ((s.blocked.insert name ((s.waiting name).insert id)).get? n).getD .empty ↔ _
      rw [SortedMap.get?_insert]
      split
      · next hn =>
        subst hn
        simp
      · next hn => simp [hn, waiting]
    rw [hstep, ih, hone, List.mem_cons]
    tauto

/-- Who is live after a submission was live before and is as it was, or it is the new action: it
misses the names that it reads and that are not available, it is blocked if there are any, and it is
listed under them. -/
theorem accept_back (s : Schedule) (c : Catalog) (task : Submission) (monitor : Monitor) {id : Nat}
    {y : Entry} (hy : (s.accept c task monitor).2.1.actions.get? id = some y) :
    (id ≠ s.nextId ∧ s.actions.get? id = some y ∧
        ∀ name, id ∈ s.waiting name → id ∈ (s.accept c task monitor).2.1.waiting name) ∨
      id = s.nextId ∧ y.action.task = task ∧
        (∀ n, n ∈ y.missing ↔ n ∈ task.dependencies ∧ c.isAvailable n = false) ∧
        (y.state = .blocked ↔ ∃ n, n ∈ y.missing) ∧
        ∀ n ∈ y.missing, id ∈ (s.accept c task monitor).2.1.waiting n := by
  have hmem {n : String} : n ∈ SortedSet.ofList (task.dependencies.filter
      fun name => !c.isAvailable name) ↔ n ∈ task.dependencies ∧ c.isAvailable n = false := by
    simp
  unfold accept at hy ⊢
  dsimp only at hy ⊢
  split at hy
  · next hempty =>
    rw [if_pos hempty]
    rw [SortedMap.get?_insert] at hy
    split at hy
    · next hid =>
      rw [← Option.some_inj.mp hy]
      simp only [emit_frame]
      refine .inr ⟨hid, trivial, fun n => hmem, ?_, ?_⟩
      · exact iff_of_false (fun h => by cases h) fun h =>
          h.elim fun n hn => SortedSet.isEmpty_iff.mp hempty n hn
      · exact fun n hn => absurd hn (SortedSet.isEmpty_iff.mp hempty n)
    · next hid => exact .inl ⟨hid, hy, fun name h => h⟩
  · next hempty =>
    rw [if_neg hempty]
    rw [SortedMap.get?_insert] at hy
    split at hy
    · next hid =>
      rw [← Option.some_inj.mp hy]
      simp only [emit_frame]
      refine .inr ⟨hid, trivial, fun n => hmem, iff_of_true trivial ?_, fun n hn => ?_⟩
      · rw [SortedSet.isEmpty_iff] at hempty
        simpa using hempty
      · exact mem_waiting_enqueue.mpr (.inl ⟨hid, hn⟩)
    · next hid => exact .inl ⟨hid, hy, fun name h => mem_waiting_enqueue.mpr (.inr h)⟩

/-- Those of a list who are live had a name crossed off, and became ready if they were blocked and
miss nothing more. -/
def CrossesOff (name : String) (ids : List Nat) (s t : Schedule) : Prop :=
  ∀ {id y}, t.actions.get? id = some y → ∃ x, s.actions.get? id = some x ∧ y.action = x.action ∧
    (∀ n, n ∈ y.missing ↔ n ∈ x.missing ∧ ¬ (id ∈ ids ∧ n = name)) ∧
    (y.state = .blocked ↔ x.state = .blocked ∧ (id ∈ ids → ∃ n, n ∈ y.missing)) ∧
    (x.state ≠ .blocked → y.state = x.state)

theorem crossesOff_wakeOne (name : String) (s : Schedule) (o : Outbox) (id : Nat) :
    CrossesOff name [id] s (wakeOne name s o id).1 := by
  intro i y hy
  unfold wakeOne at hy
  have hsame (hy : s.actions.get? i = some y) (hi : i ≠ id) :
      ∃ x, s.actions.get? i = some x ∧ y.action = x.action ∧
        (∀ n, n ∈ y.missing ↔ n ∈ x.missing ∧ ¬ (i ∈ [id] ∧ n = name)) ∧
        (y.state = .blocked ↔ x.state = .blocked ∧ (i ∈ [id] → ∃ n, n ∈ y.missing)) ∧
        (x.state ≠ .blocked → y.state = x.state) :=
    ⟨y, hy, rfl, fun n => by simp [hi], by simp [hi], fun _ => rfl⟩
  cases hx : s.actions.get? id with
  | none =>
    rw [hx] at hy
    exact hsame hy fun hi => by rw [hi, hx] at hy; cases hy
  | some x =>
    rw [hx] at hy
    dsimp only at hy
    split at hy
    · next hc =>
      rw [SortedMap.get?_insert] at hy
      split at hy
      · next hi =>
        rw [← Option.some_inj.mp hy]
        simp only [emit_frame]
        refine ⟨x, hi ▸ hx, rfl, fun n => by simp [hi], ?_, fun hne => absurd hc.2 hne⟩
        refine iff_of_false (fun h => by cases h) fun h => ?_
        obtain ⟨n, hn⟩ := h.2 (List.mem_singleton.mpr hi)
        exact SortedSet.isEmpty_iff.mp hc.1 n hn
      · next hi => exact hsame hy hi
    · next hc =>
      rw [SortedMap.get?_insert] at hy
      split at hy
      · next hi =>
        rw [← Option.some_inj.mp hy]
        refine ⟨x, hi ▸ hx, rfl, fun n => by simp [hi], ?_, fun _ => rfl⟩
        refine (and_iff_left_of_imp fun hb _ => ?_).symm
        have hleft : ¬ (x.missing.erase name).isEmpty = true := fun he => hc ⟨he, hb⟩
        rw [SortedSet.isEmpty_iff] at hleft
        simpa using hleft
      · next hi => exact hsame hy hi

theorem crossesOff_foldl (name : String) (ids : List Nat) (s : Schedule) (o : Outbox) :
    CrossesOff name ids s (ids.foldl (fun r id => wakeOne name r.1 r.2 id) (s, o)).1 := by
  induction ids generalizing s o with
  | nil => exact fun {id y} hy => ⟨y, hy, rfl, fun n => by simp, by simp, fun _ => rfl⟩
  | cons i ids ih =>
    intro id z hz
    obtain ⟨y, hy, hact, hmiss, hst, hother⟩ := ih _ _ hz
    obtain ⟨x, hx, hact', hmiss', hst', hother'⟩ := crossesOff_wakeOne name s o i hy
    refine ⟨x, hx, hact.trans hact', fun n => ?_, ?_, fun hne => ?_⟩
    · rw [hmiss, hmiss', List.mem_singleton, List.mem_cons, or_and_right, not_or, and_assoc]
    · -- whoever still misses a name in the end missed one all the time
      have hlater : (∃ n, n ∈ z.missing) → ∃ n, n ∈ y.missing :=
        fun ⟨n, hn⟩ => ⟨n, ((hmiss n).mp hn).1⟩
      rw [hst, hst', List.mem_singleton, List.mem_cons]
      constructor
      · rintro ⟨⟨hb, hone⟩, hrest⟩
        refine ⟨hb, ?_⟩
        by_cases hid : id ∈ ids
        · exact fun _ => hrest hid
        · rintro (rfl | hid')
          · obtain ⟨n, hn⟩ := hone rfl
            exact ⟨n, (hmiss n).mpr ⟨hn, fun hc => hid hc.1⟩⟩
          · exact absurd hid' hid
      · rintro ⟨hb, hall⟩
        exact ⟨⟨hb, fun he => hlater (hall (.inl he))⟩, fun hid => hall (.inr hid)⟩
    · have hy' := hother' hne
      rw [← hy']
      exact hother (hy' ▸ hne)

theorem waiting_wakeOne (name : String) (s : Schedule) (o : Outbox) (id : Nat) (n : String) :
    (wakeOne name s o id).1.waiting n = s.waiting n := by
  unfold wakeOne
  split
  · rfl
  · dsimp only
    split <;> rfl

/-- Waking a name crosses it off for all who are listed under it, and nobody is listed under it any
more. -/
theorem wake_back (s : Schedule) (name : String) :
    CrossesOff name (s.waiting name).toList s (s.wake name).1 ∧
      ∀ n, n ≠ name → (s.wake name).1.waiting n = s.waiting n := by
  unfold wake
  cases hb : s.blocked.get? name with
  | none =>
    refine ⟨fun {id y} hy => ⟨y, hy, rfl, fun n => ?_, ?_, fun _ => rfl⟩, fun _ _ => rfl⟩ <;>
      simp [waiting, hb]
  | some ids =>
    have hids : (s.waiting name).toList = ids.toList := by rw [waiting, hb, Option.getD_some]
    rw [hids]
    refine ⟨crossesOff_foldl name ids.toList { s with blocked := s.blocked.erase name } {},
      fun n hn => ?_⟩
    refine List.foldlRecOn (motive := fun r : Schedule × Outbox => r.1.waiting n = s.waiting n)
      ids.toList _ ?_ fun r hr id _ => ?_
    · show ((s.blocked.erase name).get? n).getD .empty = s.waiting n
      rw [SortedMap.get?_erase_of_ne _ hn, waiting]
    · exact (waiting_wakeOne name r.1 r.2 id n).trans hr

end Schedule

namespace Pass

open Schedule (Sustains)

variable {p q : Pass}

theorem sustains_bind (p : Pass) (x : Candidate) (free : Capacity) (pool : Pool) :
    p.schedule.Sustains (p.bind x free pool).schedule := by
  unfold bind
  dsimp only
  split
  · exact ⟨fun h => ⟨_, h, rfl, rfl, fun hb => hb⟩, fun _ h => h⟩
  · next e he =>
    obtain ⟨hact, hmiss, hst⟩ := Schedule.emit_frame
      { e with state := .assigned, binding := some x.view.key }
      (.assigned x.action.id x.view.key x.index) p.outbox
    exact Schedule.sustains_of_insert he rfl rfl hact hmiss fun hb => by
      rw [hst] at hb
      cases hb

theorem sustains_reportOne (views : List WorkerView) (s : Schedule) (o : Outbox) (id : Nat) :
    s.Sustains (reportOne views s o id).1 := by
  unfold reportOne
  split
  · exact .refl s
  · next x hx =>
    dsimp only
    split
    · exact .refl s
    · obtain ⟨hact, hmiss, hst⟩ := Schedule.emit_frame x (.noEligibleResource id) o
      exact Schedule.sustains_of_insert hx rfl rfl hact hmiss fun hb => hst ▸ hb

/-- In a pass nobody begins to wait, disturbed or not. -/
theorem Amid.sustains (h : p.Amid q) : p.schedule.Sustains q.schedule := by
  induction h with
  | start => exact .refl p.schedule
  | score _ _ _ ih => exact ih
  | disturb _ _ ih => exact ih
  | bind _ _ ih => exact ih.trans (sustains_bind _ _ _ _)
  | @revise q x _ ih =>
    obtain ⟨views, hv⟩ := q.revise_eq x
    rw [hv]
    exact ih
  | @report q _ ih =>
    refine ih.trans ?_
    exact List.foldlRecOn (motive := fun r : Schedule × Outbox => q.schedule.Sustains r.1)
      q.schedule.ready.toList _ (.refl _) fun r hr id _ =>
        hr.trans (sustains_reportOne (accepting q.pool) r.1 r.2 id)

end Pass

/-! ## The invariant -/

/-- Who is blocked waits for what is not there, up to what is owed by the agenda. -/
structure Waits (s : Schedule) (c : Catalog) (agenda : List Item) : Prop where
  /-- Who is blocked misses a name. -/
  starved : ∀ {id x}, s.actions.get? id = some x → x.state = .blocked → ∃ n, n ∈ x.missing
  /-- Who misses a name is listed under it. -/
  listed : ∀ {id x n}, s.actions.get? id = some x → n ∈ x.missing → id ∈ s.waiting n
  /-- A name that is missed is read. -/
  read : ∀ {id x n}, s.actions.get? id = some x → n ∈ x.missing → n ∈ x.action.task.dependencies
  /-- It is not available, or waking it is owed. -/
  absent : ∀ {id x n}, s.actions.get? id = some x → n ∈ x.missing →
    c.isAvailable n = false ∨ .wake n ∈ agenda

theorem waits_empty (limit : Nat) (c : Catalog) : Waits { historyLimit := limit } c [] where
  starved h := by cases h
  listed h := by cases h
  read h := by cases h
  absent h := by cases h

namespace Waits

variable {s t : Schedule} {c c' : Catalog} {a b : List Item}

/-- Only what wakes counts on the agenda. -/
theorem agenda (h : Waits s c a) (hab : ∀ n, .wake n ∈ a → .wake n ∈ b) : Waits s c b :=
  ⟨h.starved, h.listed, h.read, fun hx hn => (h.absent hx hn).imp_right (hab _)⟩

/-- What appears is owed. -/
theorem announces {items : List Item} (h : Waits s c a) (hc : c.Listed)
    (ha : c.Announces c' (Item.wakes items)) : Waits s c' (items ++ a) := by
  refine ⟨h.starved, h.listed, h.read, fun {id x n} hx hn => ?_⟩
  rcases h.absent hx hn with hno | howed
  · cases hn' : c'.isAvailable n with
    | false => exact .inl rfl
    | true =>
      rcases ha.mem hc n hn' with hyes | hmem
      · rw [hno] at hyes
        cases hyes
      · exact .inr (List.mem_append_left a (Item.mem_wakes.mp hmem))
  · exact .inr (List.mem_append_right items howed)

theorem sustains (h : Waits s c a) (hs : s.Sustains t) : Waits t c a := by
  refine ⟨fun hy hb => ?_, fun hy hn => ?_, fun hy hn => ?_, fun hy hn => ?_⟩ <;>
    obtain ⟨x, hx, hact, hmiss, hst⟩ := hs.back hy
  · rw [hmiss]
    exact h.starved hx (hst hb)
  · exact hs.listed hy (h.listed hx (hmiss ▸ hn))
  · rw [hact]
    exact h.read hx (hmiss ▸ hn)
  · exact h.absent hx (hmiss ▸ hn)

/-- A new action waits for what is not there. -/
theorem accept (h : Waits s c a) (task : Submission) (monitor : Monitor) :
    Waits (s.accept c task monitor).2.1 c a := by
  refine ⟨fun hy hb => ?_, fun {id y n} hy hn => ?_, fun {id y n} hy hn => ?_,
    fun {id y n} hy hn => ?_⟩ <;>
    rcases s.accept_back c task monitor hy with ⟨-, hx, hl⟩ | ⟨hid, htask, hmiss, hst, hl⟩
  · exact h.starved hx hb
  · exact hst.mp hb
  · exact hl n (h.listed hx hn)
  · exact hl n hn
  · exact h.read hx hn
  · rw [htask]
    exact ((hmiss n).mp hn).1
  · exact h.absent hx hn
  · exact .inl ((hmiss n).mp hn).2

/-- When a name wakes, nobody misses it any more. -/
theorem wake {name : String} (h : Waits s c (.wake name :: a)) : Waits (s.wake name).1 c a := by
  obtain ⟨hback, hlists⟩ := s.wake_back name
  have hne {id : Nat} {y : Entry} {n : String} (hy : (s.wake name).1.actions.get? id = some y)
      (hn : n ∈ y.missing) : n ≠ name ∧ ∃ x, s.actions.get? id = some x ∧ n ∈ x.missing ∧
        y.action = x.action := by
    obtain ⟨x, hx, hact, hmiss, -⟩ := hback hy
    obtain ⟨hn', hno⟩ := (hmiss n).mp hn
    refine ⟨fun he => hno ⟨?_, he⟩, x, hx, hn', hact⟩
    exact SortedSet.mem_toList.mpr (h.listed hx (he ▸ hn'))
  refine ⟨fun {id y} hy hb => ?_, fun {id y n} hy hn => ?_, fun {id y n} hy hn => ?_,
    fun {id y n} hy hn => ?_⟩
  · obtain ⟨x, hx, -, hmiss, hst, -⟩ := hback hy
    obtain ⟨hb', hsome⟩ := hst.mp hb
    obtain ⟨n, hn⟩ := h.starved hx hb'
    by_cases hid : id ∈ (s.waiting name).toList
    · exact hsome hid
    · exact ⟨n, (hmiss n).mpr ⟨hn, fun hc => hid hc.1⟩⟩
  · obtain ⟨hne', x, hx, hn', -⟩ := hne hy hn
    rw [hlists n hne']
    exact h.listed hx hn'
  · obtain ⟨-, x, hx, hn', hact⟩ := hne hy hn
    rw [hact]
    exact h.read hx hn'
  · obtain ⟨hne', x, hx, hn', -⟩ := hne hy hn
    refine (h.absent hx hn').imp_right fun howed => ?_
    rcases List.mem_cons.mp howed with he | howed
    · cases he
      exact absurd rfl hne'
    · exact howed

end Waits

namespace World

variable {w : World}

/-- A deed wakes a name, or accepts a task, or does neither. -/
theorem Moves.wakes_or_accepts {d : Deed} {s : Schedule} (h : w.Moves d s) :
    (∃ n, d = .wake n ∧ s = (w.schedule.wake n).1) ∨
      (∃ task monitor, d = .submit task monitor ∧
        s = (w.schedule.accept w.catalog task monitor).2.1) ∨
      (∀ n, d ≠ .wake n) ∧ ∀ task monitor, d ≠ .submit task monitor := by
  cases h with
  | wake n => exact .inl ⟨n, rfl, rfl⟩
  | submit task monitor => exact .inr (.inl ⟨task, monitor, rfl, rfl⟩)
  | same hw hs => exact .inr (.inr ⟨hw, hs⟩)
  | _ => exact .inr (.inr ⟨nofun, nofun⟩)

/-- Only submissions and names that wake change who waits for what. -/
theorem Moves.sustains {d : Deed} {s : Schedule} (h : w.Moves d s) (hw : ∀ n, d ≠ .wake n)
    (hs : ∀ task m, d ≠ .submit task m) : w.schedule.Sustains s := by
  cases h with
  | same _ _ => exact .refl _
  | pass =>
    exact (Pass.amid_run w.policy
      (Pass.start w.schedule w.pool w.catalog w.disturbances w.scored)).sustains
  | wake name => exact absurd rfl (hw name)
  | submit task monitor => exact absurd rfl (hs task monitor)
  | conclude ending _ => exact Schedule.sustains_conclude _ _ _ _ _
  | run marked => exact Schedule.sustains_markRunning marked
  | fail key ids => exact Schedule.sustains_abandon _ key ids

end World

namespace Machine

variable {rule : Conduct} {policy : Policy} {localNodes : List String} {withholds : Bool}
  {limit : Nat} {disturbances : List Disturbance} {t : List Moment} {m : Machine}

/-- Names are listed, and who is blocked waits for what is not there. -/
structure Wakeful (m : Machine) : Prop where
  /-- Data list their names. -/
  names : m.world.catalog.Listed
  /-- Who is blocked waits for what is not there, up to what is owed. -/
  waits : Waits m.world.schedule m.world.catalog m.agenda

theorem Wakeful.step {w : World} {i : Item} {rest : List Item} (h : Wakeful ⟨w, i :: rest⟩) :
    Wakeful (Machine.step ⟨w, i :: rest⟩) := by
  rw [step_cons]
  have ha := w.announces_carryOut i
  refine ⟨ha.listed h.names, ?_⟩
  suffices hw : Waits (w.carryOut i).1.schedule w.catalog rest from hw.announces h.names ha
  -- what is done first was owed only if it wakes
  have hrest (hi : ∀ n, i ≠ .wake n) : Waits w.schedule w.catalog rest :=
    h.waits.agenda fun n hn => (List.mem_cons.mp hn).resolve_left fun he => hi n he.symm
  have hby := Moment.doneBy_deed ⟨w, i⟩
  have hmoves := (w.does_carryOut i).moves
  generalize (w.carryOut i).1.schedule = s at hmoves ⊢
  generalize hd : Moment.deed ⟨w, i⟩ = d at hmoves hby
  have hkept (hw : ∀ n, d ≠ .wake n) : Waits w.schedule w.catalog rest := by
    refine hrest ?_
    rintro n rfl
    exact hw n hd.symm
  have hsus := hmoves.sustains
  cases hmoves with
  | wake name =>
    obtain rfl : i = .wake name := hby
    exact h.waits.wake
  | submit task monitor => exact (hkept nofun).accept task monitor
  | same hw _ => exact hkept hw
  | pass => exact (hkept nofun).sustains (hsus nofun nofun)
  | conclude _ _ => exact (hkept nofun).sustains (hsus nofun nofun)
  | run _ => exact (hkept nofun).sustains (hsus nofun nofun)
  | fail _ _ => exact (hkept nofun).sustains (hsus nofun nofun)

/-- At every step of every run, who is blocked waits for what is not there. -/
theorem Course.wakeful
    (h : Course rule { World.fresh policy localNodes withholds limit with disturbances } t m) :
    m.Wakeful := by
  induction h with
  | start => exact ⟨Catalog.listed_empty, waits_empty limit _⟩
  | ask _ _ _ ih => exact ⟨ih.names, ih.waits.agenda fun _ hn => by cases hn⟩
  | item _ ih => exact ih.step
  | answer given _ _ ih =>
    refine ⟨ih.names, ih.waits.agenda fun n hn => List.mem_append_right _ ?_⟩
    exact (List.mem_cons.mp hn).resolve_left fun he => by cases he

/-- Between calls, whatever was asked and whatever clients answered, every blocked action misses a
name, and every name that it misses is one that it reads and that is not available.  So none of
them is blocked while all that it reads can be read. -/
theorem Reached.no_lost_wakeup {w : World}
    (h : Reached rule { World.fresh policy localNodes withholds limit with disturbances } w)
    {id : Nat} {x : Entry} (hx : w.schedule.actions.get? id = some x) (hb : x.state = .blocked) :
    (∃ n, n ∈ x.missing) ∧
      (∀ n ∈ x.missing, n ∈ x.action.task.dependencies ∧ w.catalog.isAvailable n = false) ∧
      ∃ n ∈ x.action.task.dependencies, w.catalog.isAvailable n = false := by
  obtain ⟨l, hl⟩ := h
  obtain ⟨t, ht⟩ := hl.exists_course
  have hwaits := ht.wakeful.waits
  have hall (n : String) (hn : n ∈ x.missing) :
      n ∈ x.action.task.dependencies ∧ w.catalog.isAvailable n = false :=
    ⟨hwaits.read hx hn, (hwaits.absent hx hn).resolve_right List.not_mem_nil⟩
  obtain ⟨n, hn⟩ := hwaits.starved hx hb
  exact ⟨⟨n, hn⟩, hall, n, hall n hn⟩

/-! ### A grid with an action that waits for one of two data -/

/-- A task that reads two data is submitted. -/
def expecting : Machine :=
  asked (.fresh .fifo [] false 8) 0
    (.submit (((Submission.single (.cpus 1) "h").reading "a").reading "b") .silent)

/-- Then one of them becomes available. -/
def arriving : Machine :=
  asked (expecting.advance 6).world 1 (.addReplica "a" (.persistent "p"))

theorem course_arriving :
    Course (.lively fun _ => True) { World.fresh .fifo [] false 8 with disturbances := [] }
      (moments 3 arriving ++ (moments 6 expecting ++ [])) ⟨(arriving.advance 3).world, []⟩ :=
  (Course.start.call 0 6 trivial (by decide +kernel)).call 1 3 trivial (by decide +kernel)

/-- It goes on waiting, for the other one. -/
theorem no_lost_wakeup_arriving :
    ∃ x, (arriving.advance 3).world.schedule.actions.get? 1 = some x ∧ x.state = .blocked ∧
      (∃ n, n ∈ x.missing) ∧
      (∀ n ∈ x.missing, n ∈ x.action.task.dependencies ∧
        (arriving.advance 3).world.catalog.isAvailable n = false) ∧
      ∃ n ∈ x.action.task.dependencies,
        (arriving.advance 3).world.catalog.isAvailable n = false := by
  have hstate : ((arriving.advance 3).world.schedule.actions.get? 1).map Entry.state =
      some .blocked := by decide +kernel
  obtain ⟨x, hx, hb⟩ := Option.map_eq_some_iff.mp hstate
  exact ⟨x, hx, hb, Reached.no_lost_wakeup course_arriving.run hx hb⟩

end Machine

end TaskGrid
