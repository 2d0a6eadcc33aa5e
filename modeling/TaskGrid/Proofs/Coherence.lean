import TaskGrid.Proofs.Waiting

/-!
# The parts of the table say the same

The table keeps what it knows of an action in several places: in the entry with its state, its
missing names and its binding, in the list of ready actions, under every name that is missed, and,
once the action has ended, in the history.  An identifier that was left behind in one of them would
bring an action back or leave it waiting for ever.

## The invariant

`Schedule.Coherent` says that each of these places lists exactly what the entries say.  Nothing is
owed here: every item changes all places at once, so the invariant holds at every step of every
run, whatever is asked, whatever clients answer, and whatever disturbs the passes.

* `Schedule.Coherent`: the invariant, and `Schedule.Coherent.liveCount_eq`, how the counts add up.
* `Schedule.Coherent.of_insert`, `Schedule.Coherent.of_erase`: one entry replaced, one entry gone.
* `Pass.Stable`, `Pass.Stable.run`: what a pass keeps, even one that is disturbed.
* `Machine.Run.table_coherent`: the invariant along every run.
-/

namespace TaskGrid

namespace Schedule

/-- No name is kept under which nobody is listed. -/
def Pruned (blocked : SortedMap String (SortedSet Nat)) : Prop :=
  ∀ ⦃n ids⦄, blocked.get? n = some ids → ids.isEmpty = false

/-- The parts of a table list exactly what its entries say. -/
structure Coherent (s : Schedule) : Prop extends s.Sound where
  /-- An action is listed under a name exactly if it is live, blocked and misses the name. -/
  waiting_iff : ∀ {id n}, id ∈ s.waiting n ↔
    ∃ x, s.actions.get? id = some x ∧ x.state = .blocked ∧ n ∈ x.missing
  /-- No name is kept under which nobody is listed. -/
  pruned : Pruned s.blocked
  /-- A live action is blocked exactly if it misses a name. -/
  blocked_iff : ∀ {id x}, s.actions.get? id = some x → (x.state = .blocked ↔ ∃ n, n ∈ x.missing)
  /-- No live action has ended. -/
  alive : ∀ {id x}, s.actions.get? id = some x → x.state.isTerminal = false
  /-- Who is remembered to have ended was accepted before and is not live. -/
  ended : ∀ {id last}, (id, last) ∈ s.history → id < s.nextId ∧ s.actions.get? id = none

/-- The number of bound actions. -/
def boundCount (s : Schedule) : Nat := s.actions.values.countP fun x => x.binding.isSome

/-- The empty table is coherent. -/
theorem coherent_empty (limit : Nat) : ({ historyLimit := limit } : Schedule).Coherent where
  toSound := sound_empty limit
  waiting_iff := ⟨fun h => absurd h (SortedSet.not_mem_empty _), fun ⟨_, h, _⟩ => by cases h⟩
  pruned _ _ h := by cases h
  blocked_iff h := by cases h
  alive h := by cases h
  ended h := by cases h

variable {s t : Schedule}

/-! ## Counting -/

/-- As many actions are listed as ready as there are entries in state ready. -/
theorem Sound.readyCount_eq (h : s.Sound) :
    s.readyCount = s.actions.values.countP fun x => x.state = .ready := by
  have hkeys : (s.actions.entries.filter fun e => e.2.state = .ready).map Prod.fst |>.Nodup := by
    refine (List.pairwise_map.mpr (s.actions.sorted.filter _ |>.imp ?_))
    intro a b hlt he
    have heq : compare a.1 a.1 = .eq := Std.ReflCmp.compare_self
    rw [← he, heq] at hlt
    cases hlt
  have hperm : s.ready.toList.Perm
      ((s.actions.entries.filter fun e => e.2.state = .ready).map Prod.fst) := by
    refine (List.perm_ext_iff_of_nodup s.ready.nodup_toList hkeys).mpr fun id => ?_
    rw [SortedSet.mem_toList, h.ready_iff, List.mem_map]
    constructor
    · rintro ⟨x, hx, hr⟩
      obtain ⟨e, he, rfl⟩ := standing?_eq_some_iff.mp hx
      exact ⟨(id, e),
        List.mem_filter.mpr ⟨SortedMap.mem_entries_iff.mpr he, decide_eq_true hr⟩, rfl⟩
    · rintro ⟨⟨i, e⟩, he, rfl⟩
      obtain ⟨he, hr⟩ := List.mem_filter.mp he
      exact ⟨e.standing, standing?_eq_some_iff.mpr ⟨e, SortedMap.mem_entries_iff.mp he, rfl⟩,
        of_decide_eq_true hr⟩
  unfold readyCount SortedSet.size SortedMap.values
  rw [hperm.length_eq, List.length_map, List.countP_map, ← List.countP_eq_length_filter]
  rfl

/-- Every live action is ready, blocked or bound, and only one of these. -/
theorem Coherent.liveCount_eq (h : s.Coherent) :
    s.liveCount = s.readyCount + s.blockedCount + s.boundCount := by
  rw [h.readyCount_eq]
  unfold liveCount blockedCount boundCount SortedMap.size
  have hall : ∀ x ∈ s.actions.values, x.state.isTerminal = false ∧
      (x.binding.isSome = true ↔ x.state.holdsCapacity = true) := by
    intro x hx
    obtain ⟨⟨id, e⟩, he, rfl⟩ := List.mem_map.mp hx
    have he' := SortedMap.mem_entries_iff.mp he
    exact ⟨h.alive he', h.bound_iff (standing?_eq_some_iff.mpr ⟨e, he', rfl⟩)⟩
  have hlen : s.actions.entries.length = s.actions.values.length := (List.length_map _).symm
  rw [hlen]
  generalize s.actions.values = l at hall
  induction l with
  | nil => rfl
  | cons x l ih =>
    obtain ⟨⟨halive, hbound⟩, hl⟩ := List.forall_mem_cons.mp hall
    have hone : (if x.state = .ready then 1 else 0) + (if x.state = .blocked then 1 else 0) +
        (if x.binding.isSome = true then 1 else 0) = 1 := by
      simp only [hbound]
      cases hs : x.state <;> rw [hs] at halive <;> first | rfl | cases halive
    simp only [List.countP_cons, List.length_cons, ih hl, decide_eq_true_eq]
    omega

/-! ## One entry replaced, one entry gone -/

/-- One entry is replaced by one that waits for the same and has not ended. -/
theorem Coherent.of_insert (h : s.Coherent) {id : Nat} {x e : Entry}
    (hx : s.actions.get? id = some x) (ht : t.actions = s.actions.insert id e)
    (blocked : t.blocked = s.blocked) (history : t.history = s.history)
    (nextId : t.nextId = s.nextId) (sound : t.Sound) (missing : e.missing = x.missing)
    (state : e.state = .blocked ↔ x.state = .blocked) (alive : e.state.isTerminal = false) :
    t.Coherent := by
  have hget (i : Nat) : t.actions.get? i = if i = id then some e else s.actions.get? i := by
    rw [ht, SortedMap.get?_insert]
  refine ⟨sound, fun {i n} => ?_, blocked ▸ h.pruned, fun {i y} hy => ?_,
    fun {i y} hy => ?_, fun {i last} hi => ?_⟩
  · rw [waiting, blocked, ← waiting, h.waiting_iff, hget]
    split
    · next hi =>
      subst hi
      simp [hx, missing, state]
    · exact .rfl
  · rw [hget] at hy
    split at hy
    · rw [← Option.some_inj.mp hy, missing, state]
      exact h.blocked_iff hx
    · exact h.blocked_iff hy
  · rw [hget] at hy
    split at hy
    · rw [← Option.some_inj.mp hy]
      exact alive
    · exact h.alive hy
  · rw [history] at hi
    obtain ⟨hlt, hnone⟩ := h.ended hi
    rw [nextId, hget, if_neg]
    · exact ⟨hlt, hnone⟩
    · rintro rfl
      rw [hx] at hnone
      cases hnone

/-- One entry is taken out wherever it is listed, and perhaps remembered. -/
theorem Coherent.of_erase (h : s.Coherent) {id : Nat} (hid : id < s.nextId)
    (ht : t.actions = s.actions.erase id)
    (waiting : ∀ i n, i ∈ t.waiting n ↔ i ≠ id ∧ i ∈ s.waiting n)
    (pruned : Pruned t.blocked) (history : ∀ e ∈ t.history, e.1 = id ∨ e ∈ s.history)
    (nextId : t.nextId = s.nextId) (sound : t.Sound) : t.Coherent := by
  have hget (i : Nat) : t.actions.get? i = if i = id then none else s.actions.get? i := by
    rw [ht, SortedMap.get?_erase]
  have hback {i : Nat} {y : Entry} (hy : t.actions.get? i = some y) :
      s.actions.get? i = some y := by
    rw [hget] at hy
    split at hy
    · cases hy
    · exact hy
  refine ⟨sound, fun {i n} => ?_, pruned, fun hy => h.blocked_iff (hback hy),
    fun hy => h.alive (hback hy), fun {i last} hi => ?_⟩
  · rw [waiting, h.waiting_iff, hget]
    by_cases hi : i = id <;> simp [hi]
  · rw [nextId, hget]
    rcases history _ hi with rfl | hi
    · exact ⟨hid, if_pos rfl⟩
    · obtain ⟨hlt, hnone⟩ := h.ended hi
      exact ⟨hlt, by rw [hnone, ite_self]⟩

/-- Who is bound is listed under no name. -/
theorem Coherent.notMem_waiting (h : s.Coherent) {id : Nat} {x : Entry}
    (hx : s.actions.get? id = some x) (hs : x.state ≠ .blocked) (n : String) :
    id ∉ s.waiting n := by
  intro hid
  obtain ⟨y, hy, hb, -⟩ := h.waiting_iff.mp hid
  rw [hx] at hy
  exact hs (Option.some_inj.mp hy ▸ hb)

/-! ## Accepting -/

theorem pruned_enqueue (h : Pruned s.blocked) (id : Nat) (names : List String) :
    Pruned (s.enqueue id names).blocked :=
  List.foldlRecOn (motive := Pruned) names _ h fun b hb name _ n ids hn => by
    rw [SortedMap.get?_insert] at hn
    split at hn
    · rw [← Option.some_inj.mp hn, Bool.eq_false_iff, ne_eq, SortedSet.isEmpty_iff]
      exact fun hnone => hnone id (SortedSet.mem_insert.mpr (.inl rfl))
    · exact hb hn

/-- A submission is listed under the names that it reads and that are not available. -/
theorem mem_waiting_accept (s : Schedule) (c : Catalog) (task : Submission) (monitor : Monitor)
    {i : Nat} {n : String} :
    i ∈ (s.accept c task monitor).2.1.waiting n ↔
      i = s.nextId ∧ n ∈ task.dependencies ∧ c.isAvailable n = false ∨ i ∈ s.waiting n := by
  have hmem : n ∈ SortedSet.ofList (task.dependencies.filter fun name => !c.isAvailable name) ↔
      n ∈ task.dependencies ∧ c.isAvailable n = false := by simp
  unfold accept
  dsimp only
  split
  · next hempty =>
    rw [← hmem]
    exact (or_iff_right fun hn => SortedSet.isEmpty_iff.mp hempty n hn.2).symm
  · rw [← hmem]
    exact mem_waiting_enqueue

theorem history_accept (s : Schedule) (c : Catalog) (task : Submission) (monitor : Monitor) :
    (s.accept c task monitor).2.1.history = s.history := by
  unfold accept
  dsimp only
  split <;> rfl

theorem pruned_accept (h : Pruned s.blocked) (c : Catalog) (task : Submission)
    (monitor : Monitor) : Pruned (s.accept c task monitor).2.1.blocked := by
  unfold accept
  dsimp only
  split
  · exact h
  · exact pruned_enqueue
      (s := { s with nextId := s.nextId + 1, nextSequence := s.nextSequence + 1 }) h s.nextId _

theorem coherent_accept (h : s.Coherent) (c : Catalog) (task : Submission) (monitor : Monitor) :
    (s.accept c task monitor).2.1.Coherent := by
  have hsound := sound_accept h.toSound c task monitor
  have hfresh : s.actions.get? s.nextId = none := by
    cases hx : s.actions.get? s.nextId with
    | none => rfl
    | some x => exact absurd (h.old (standing?_eq_some_iff.mpr ⟨x, hx, rfl⟩)) (Nat.lt_irrefl _)
  have hst := standing?_accept s c task monitor
  have hmem := @mem_waiting_accept s c task monitor
  have hback {id : Nat} {y : Entry} (hy : (s.accept c task monitor).2.1.actions.get? id = some y) :=
    accept_back s c task monitor hy
  have hhist := history_accept s c task monitor
  have hnext := nextId_accept s c task monitor
  have hpruned := pruned_accept h.pruned c task monitor
  generalize (s.accept c task monitor).2.1 = t at *
  -- whoever is live stays so
  have hkept {id : Nat} {x : Entry} (hx : s.actions.get? id = some x) :
      t.actions.get? id = some x := by
    have hne : id ≠ s.nextId := by
      rintro rfl
      rw [hfresh] at hx
      cases hx
    have hy := hst id
    rw [if_neg hne, standing?_eq_some_iff.mpr ⟨x, hx, rfl⟩] at hy
    obtain ⟨y, hy, -⟩ := standing?_eq_some_iff.mp hy
    rcases hback hy with ⟨-, hx', -⟩ | ⟨hid, -⟩
    · rw [hx] at hx'
      rw [hy, hx']
    · exact absurd hid hne
  refine ⟨hsound, fun {id n} => ?_, hpruned, fun {id y} hy => ?_, fun {id y} hy => ?_,
    fun {id last} hi => ?_⟩
  · rw [hmem]
    constructor
    · rintro (⟨rfl, hn⟩ | hid)
      · have hnew := hst s.nextId
        rw [if_pos rfl] at hnew
        obtain ⟨y, hy, -⟩ := standing?_eq_some_iff.mp hnew
        rcases hback hy with ⟨hne, -⟩ | ⟨-, -, hmiss, hb, -⟩
        · exact absurd rfl hne
        · have hyn := (hmiss n).mpr hn
          exact ⟨y, hy, hb.mpr ⟨n, hyn⟩, hyn⟩
      · obtain ⟨x, hx, hb, hn⟩ := h.waiting_iff.mp hid
        exact ⟨x, hkept hx, hb, hn⟩
    · rintro ⟨y, hy, hb, hn⟩
      rcases hback hy with ⟨-, hx, -⟩ | ⟨hid, -, hmiss, -⟩
      · exact .inr (h.waiting_iff.mpr ⟨y, hx, hb, hn⟩)
      · exact .inl ⟨hid, (hmiss n).mp hn⟩
  · rcases hback hy with ⟨-, hx, -⟩ | ⟨-, -, -, hb, -⟩
    · exact h.blocked_iff hx
    · exact hb
  · have hy' := standing?_eq_some_iff.mpr ⟨y, hy, rfl⟩
    rw [hst] at hy'
    split at hy'
    · have hstate := congrArg Standing.state (Option.some_inj.mp hy')
      rw [show y.state = y.standing.state from rfl, ← hstate]
      dsimp only
      split <;> rfl
    · obtain ⟨x, hx, he⟩ := standing?_eq_some_iff.mp hy'
      rw [show y.state = y.standing.state from rfl, ← he]
      exact h.alive hx
  · rw [hhist] at hi
    obtain ⟨hlt, hnone⟩ := h.ended hi
    refine ⟨by omega, ?_⟩
    cases hy : t.actions.get? id with
    | none => rfl
    | some y =>
      rcases hback hy with ⟨-, hx, -⟩ | ⟨hid, -⟩
      · rw [hnone] at hx
        cases hx
      · omega

/-! ## Waking -/

theorem wakeOne_frame (name : String) (s : Schedule) (o : Outbox) (id : Nat) :
    (wakeOne name s o id).1.blocked = s.blocked ∧ (wakeOne name s o id).1.history = s.history := by
  unfold wakeOne
  split
  · exact ⟨rfl, rfl⟩
  · dsimp only
    split <;> exact ⟨rfl, rfl⟩

/-- Nobody is listed under a name that woke, and no other list changes. -/
theorem wake_frame (s : Schedule) (name : String) :
    (∀ n, (s.wake name).1.blocked.get? n = if n = name then none else s.blocked.get? n) ∧
      (s.wake name).1.history = s.history := by
  unfold wake
  split
  · next hb =>
    refine ⟨fun n => ?_, rfl⟩
    split
    · next hn => rw [hn, hb]
    · rfl
  · next ids _ =>
    have hall := List.foldlRecOn
      (motive := fun r : Schedule × Outbox =>
        r.1.blocked = s.blocked.erase name ∧ r.1.history = s.history)
      ids.toList (fun r id => wakeOne name r.1 r.2 id)
      (b := ({ s with blocked := s.blocked.erase name }, {})) ⟨rfl, rfl⟩
      fun r hr id _ => ⟨(wakeOne_frame name r.1 r.2 id).1.trans hr.1,
        (wakeOne_frame name r.1 r.2 id).2.trans hr.2⟩
    refine ⟨fun n => ?_, hall.2⟩
    rw [← SortedMap.get?_erase]
    exact congrArg (fun b => b.get? n) hall.1

theorem coherent_wake (h : s.Coherent) (name : String) : (s.wake name).1.Coherent := by
  have hsound := sound_wake h.toSound name
  have hpro := promotes_wake s name
  obtain ⟨hlists, hhist⟩ := wake_frame s name
  obtain ⟨hback, -⟩ := wake_back s name
  generalize (s.wake name).1 = t at *
  have hwait (n : String) : t.waiting n = if n = name then .empty else s.waiting n := by
    unfold waiting
    rw [hlists]
    split <;> rfl
  have hlive {id : Nat} : t.actions.get? id = none ↔ s.actions.get? id = none := by
    have hnone (r : Schedule) : r.actions.get? id = none ↔ r.standing? id = none :=
      Option.map_eq_none_iff.symm
    rw [hnone, hnone]
    rcases hpro.2 id with he | ⟨x, hx, -, he⟩
    · rw [he]
    · rw [he, hx]
      exact iff_of_false nofun nofun
  refine ⟨hsound, fun {id n} => ?_, fun n ids hn => ?_, fun {id y} hy => ?_,
    fun {id y} hy => ?_, fun {id last} hi => ?_⟩
  · rw [hwait]
    constructor
    · intro hid
      split at hid
      · exact absurd hid (SortedSet.not_mem_empty id)
      · next hne =>
        obtain ⟨x, hx, hb, hn⟩ := h.waiting_iff.mp hid
        cases hy : t.actions.get? id with
        | none =>
          rw [hlive.mp hy] at hx
          cases hx
        | some y =>
          obtain ⟨x', hx', -, hmiss, hst, -⟩ := hback hy
          obtain rfl : x = x' := Option.some_inj.mp (hx.symm.trans hx')
          have hyn := (hmiss n).mpr ⟨hn, fun hc => hne hc.2⟩
          exact ⟨y, rfl, hst.mpr ⟨hb, fun _ => ⟨n, hyn⟩⟩, hyn⟩
    · rintro ⟨y, hy, hb, hn⟩
      obtain ⟨x, hx, -, hmiss, hst, -⟩ := hback hy
      obtain ⟨hxn, hno⟩ := (hmiss n).mp hn
      have hid := h.waiting_iff.mpr ⟨x, hx, (hst.mp hb).1, hxn⟩
      rw [if_neg]
      · exact hid
      · rintro rfl
        exact hno ⟨SortedSet.mem_toList.mpr hid, rfl⟩
  · rw [hlists] at hn
    split at hn
    · cases hn
    · exact h.pruned hn
  · obtain ⟨x, hx, -, hmiss, hst, -⟩ := hback hy
    constructor
    · intro hb
      obtain ⟨hxb, hsome⟩ := hst.mp hb
      by_cases hid : id ∈ (s.waiting name).toList
      · exact hsome hid
      · obtain ⟨n, hn⟩ := (h.blocked_iff hx).mp hxb
        exact ⟨n, (hmiss n).mpr ⟨hn, fun hc => hid hc.1⟩⟩
    · rintro ⟨n, hn⟩
      exact hst.mpr ⟨(h.blocked_iff hx).mpr ⟨n, ((hmiss n).mp hn).1⟩, fun _ => ⟨n, hn⟩⟩
  · obtain ⟨x, hx, -, -, hstate⟩ :=
      hpro.exists_of_standing? (standing?_eq_some_iff.mpr ⟨y, hy, rfl⟩)
    obtain ⟨e, he, rfl⟩ := standing?_eq_some_iff.mp hx
    rw [show y.state = y.standing.state from rfl]
    rcases hstate with he' | ⟨-, he'⟩
    · rw [← he']
      exact h.alive he
    · rw [he']
      rfl
  · rw [hhist] at hi
    rw [hpro.1, hlive]
    exact h.ended hi

/-! ## Ending -/

/-- An action that is taken out of the list of a name is not listed under it any more. -/
theorem mem_waiting_unblock_iff {id i : Nat} {name n : String} :
    i ∈ (s.unblock id name).waiting n ↔ ¬ (i = id ∧ n = name) ∧ i ∈ s.waiting n := by
  by_cases hi : i = id
  · subst hi
    unfold unblock waiting
    cases hb : s.blocked.get? name with
    | none =>
      by_cases hn : n = name
      · subst hn
        simp [hb]
      · simp [hn]
    | some ids =>
      dsimp only
      by_cases hn : n = name
      · subst hn
        split <;> simp
      · split
        · rw [SortedMap.get?_erase_of_ne _ hn]
          simp [hn]
        · rw [SortedMap.get?_insert_of_ne _ _ hn]
          simp [hn]
  · rw [mem_waiting_unblock hi]
    simp [hi]

theorem pruned_unblock (h : Pruned s.blocked) (id : Nat) (name : String) :
    Pruned (s.unblock id name).blocked := by
  unfold unblock
  split
  · exact h
  · dsimp only
    intro n ids hn
    split at hn
    · rw [SortedMap.get?_erase] at hn
      split at hn
      · cases hn
      · exact h hn
    · next hleft =>
      rw [SortedMap.get?_insert] at hn
      split at hn
      · rw [← Option.some_inj.mp hn]
        exact Bool.eq_false_iff.mpr hleft
      · exact h hn

@[simp] theorem history_unblock (s : Schedule) (id : Nat) (name : String) :
    (s.unblock id name).history = s.history := by
  unfold unblock
  split <;> rfl

/-- An action that is taken out of the queues is listed under none of the names. -/
theorem mem_waiting_unqueue {id i : Nat} {names : List String} {n : String} :
    i ∈ (s.unqueue id names).waiting n ↔ ¬ (i = id ∧ n ∈ names) ∧ i ∈ s.waiting n := by
  unfold unqueue
  rw [show s.waiting n = ({ s with ready := s.ready.erase id } : Schedule).waiting n from rfl]
  generalize ({ s with ready := s.ready.erase id } : Schedule) = r
  induction names generalizing r with
  | nil => simp
  | cons name names ih =>
    rw [List.foldl_cons, ih, mem_waiting_unblock_iff, List.mem_cons]
    tauto

theorem pruned_unqueue (h : Pruned s.blocked) (id : Nat) (names : List String) :
    Pruned (s.unqueue id names).blocked :=
  List.foldlRecOn (motive := fun r : Schedule => Pruned r.blocked) names _ h
    fun _ hr name _ => pruned_unblock hr id name

theorem history_unqueue (s : Schedule) (id : Nat) (names : List String) :
    (s.unqueue id names).history = s.history :=
  List.foldlRecOn (motive := fun r : Schedule => r.history = s.history) names _ rfl
    fun r hr name _ => (history_unblock r id name).trans hr

/-- At most the action that ends is added to those that are remembered. -/
theorem mem_history_remember {id : Nat} {last : ActionState} {e : Nat × ActionState}
    (h : e ∈ (s.remember id last).history) : e = (id, last) ∨ e ∈ s.history := by
  unfold remember at h
  split at h
  · exact .inr h
  · rcases List.mem_append.mp h with h | h
    · split at h
      · exact .inr (List.mem_of_mem_drop h)
      · exact .inr h
    · exact .inl (List.mem_singleton.mp h)

@[simp] theorem blocked_remember (s : Schedule) (id : Nat) (last : ActionState) :
    (s.remember id last).blocked = s.blocked := by
  unfold remember
  split <;> rfl

theorem coherent_conclude (h : s.Coherent) {x : Entry}
    (hx : s.actions.get? x.action.id = some x) (p : Pool) (events : List Event)
    (last : ActionState) : (s.conclude p x events last).1.Coherent := by
  obtain ⟨hact, -, hnext⟩ := conclude_frame s p x events last
  have hold := h.old (standing?_eq_some_iff.mpr ⟨x, hx, rfl⟩)
  refine h.of_erase hold hact (fun i n => ?_) ?_ (fun e he => ?_) hnext (sound_conclude h.toSound)
  · unfold conclude
    dsimp only
    rw [waiting_remember, mem_waiting_unqueue]
    -- an action is listed under nothing but what it misses
    refine and_congr_left fun (hi : i ∈ s.waiting n) => not_congr (and_iff_left_of_imp ?_)
    rintro rfl
    obtain ⟨y, hy, -, hn⟩ := h.waiting_iff.mp hi
    rw [hx] at hy
    exact Option.some_inj.mp hy ▸ hn
  · unfold conclude
    dsimp only
    rw [blocked_remember]
    exact pruned_unqueue (s := { s with actions := s.actions.erase x.action.id }) h.pruned _ _
  · rcases mem_history_remember he with rfl | he
    · exact .inl rfl
    · rw [history_unqueue] at he
      exact .inr he

theorem coherent_abandonOne (h : s.Coherent) (key : WorkerKey) (o : Outbox) (id : Nat) :
    (abandonOne key s o id).1.Coherent := by
  have hsound := sound_abandonOne h.toSound key o id
  unfold abandonOne at hsound ⊢
  split
  · exact h
  · next x hx =>
    rw [hx] at hsound
    dsimp only at hsound ⊢
    split at hsound
    · next hb =>
      rw [if_pos hb]
      have hst := standing?_eq_some_iff.mpr ⟨x, hx, rfl⟩
      have hbound : x.standing.binding.isSome = true := Option.isSome_iff_exists.mpr ⟨key, hb⟩
      have hholds := (h.bound_iff hst).mp hbound
      refine h.of_erase (h.old hst) (actions_remember _ _ _) (fun i n => ?_) ?_ (fun e he => ?_)
        (nextId_remember _ _ _) hsound
      · rw [waiting_remember]
        refine (and_iff_right_of_imp fun (hi : i ∈ s.waiting n) => ?_).symm
        rintro rfl
        refine h.notMem_waiting hx (fun hblk => ?_) n hi
        rw [show x.standing.state = x.state from rfl, hblk] at hholds
        cases hholds
      · rw [blocked_remember]
        exact h.pruned
      · exact (mem_history_remember he).imp_left fun he => by rw [he]
    · next hb =>
      rw [if_neg hb]
      exact h

theorem coherent_abandon (h : s.Coherent) (key : WorkerKey) (ids : List Nat) :
    (s.abandon key ids).1.Coherent :=
  List.foldlRecOn (motive := fun r : Schedule × Outbox => r.1.Coherent) ids _ h
    fun r hr id _ => coherent_abandonOne hr key r.2 id

theorem coherent_markRunning (h : s.Coherent) {id : Nat} (ht : s.markRunning? id = some t) :
    t.Coherent := by
  have hsound := sound_markRunning h.toSound ht
  unfold markRunning? at ht
  obtain ⟨e, he, ht⟩ := Option.bind_eq_some_iff.mp ht
  split at ht
  · next hc =>
    cases ht
    refine h.of_insert he rfl rfl rfl rfl hsound rfl
      (iff_of_false (fun hb => by cases hb) fun hb => ?_) rfl
    rw [hb] at hc
    cases hc
  · cases ht

end Schedule

/-! ## Passes -/

namespace Pass

open Schedule (Binds standing?_eq_some_iff)

variable {p : Pass}

/-- A candidate whose reservation is made is bound, whatever happened to the pool before. -/
theorem binds_of_reserve? (hs : p.schedule.Sound) {x : Candidate}
    (hx : x ∈ candidates p.schedule p.views) {free : Capacity} {pool : Pool}
    (hr : p.pool.reserve? x.view.key x.action.id x.implementation.requirement = some (free, pool)) :
    ∃ e, p.schedule.actions.get? x.action.id = some e ∧ e.state = .ready ∧
      (p.bind x free pool).pool = pool ∧
      Binds p.schedule p.pool e.standing x.view.key x.implementation
        (p.bind x free pool).schedule pool := by
  obtain ⟨⟨y, hy, hready, hact⟩, -, hi, -⟩ := (mem_candidates hs).mp hx
  obtain ⟨w, w', hw, hw', -, hpool⟩ := Pool.reserve?_eq_some_iff.mp hr
  obtain ⟨e, he, rfl⟩ := standing?_eq_some_iff.mp hy
  obtain ⟨hp, -, -, hready', hnext, hst⟩ := bind_frame free pool he
  have hid : e.standing.action.id = x.action.id := by rw [hact]
  refine ⟨e, he, hready, hp, hid ▸ hy, hready, ?_, ⟨w, w', hw, hid ▸ hw', hpool⟩, hid ▸ hst,
    hid ▸ hready', hnext⟩
  rw [hact]
  exact List.mem_of_getElem? hi

/-- What scoring may disturb, bindings of candidates and reports keep. -/
structure Stable (P : Schedule → Pool → Prop) : Prop where
  /-- Operations on the pool keep it. -/
  disturb : ∀ {s p} (c : Catalog) (o : Pool.Operation), P s p → P s (p.perform c o).pool
  /-- Bindings of candidates keep it. -/
  bind : ∀ {p : Pass} {x : Candidate} {free : Capacity} {pool : Pool}, P p.schedule p.pool →
    x ∈ candidates p.schedule p.views →
    p.pool.reserve? x.view.key x.action.id x.implementation.requirement = some (free, pool) →
    P (p.bind x free pool).schedule (p.bind x free pool).pool
  /-- Reports keep it. -/
  report : ∀ {s p} (views : List WorkerView) (o : Outbox) (id : Nat), P s p →
    P (reportOne views s o id).1 p

namespace Stable

variable {P : Schedule → Pool → Prop}

/-- Scoring a candidate leaves table and views as they are. -/
theorem disturbFor (h : Stable P) (hp : P p.schedule p.pool) (x : Candidate) :
    (p.disturbFor x).schedule = p.schedule ∧ (p.disturbFor x).views = p.views ∧
      P p.schedule (p.disturbFor x).pool :=
  List.foldlRecOn
    (motive := fun q : Pass => q.schedule = p.schedule ∧ q.views = p.views ∧ P p.schedule q.pool)
    _ _ ⟨rfl, rfl, hp⟩ fun q hq d _ => ⟨hq.1, hq.2.1, h.disturb q.catalog d.operation hq.2.2⟩

/-- The best candidate is one of those that there are in the end. -/
theorem best? (h : Stable P) (policy : Policy) (hp : P p.schedule p.pool) :
    (p.best? policy).1.schedule = p.schedule ∧ (p.best? policy).1.views = p.views ∧
      P p.schedule (p.best? policy).1.pool ∧
      ∀ x, (p.best? policy).2 = some x → x ∈ candidates p.schedule p.views := by
  obtain ⟨hs, hv, hkept, hmem⟩ := List.foldlRecOn
    (motive := fun r : Pass × Option (Rank × Candidate) =>
      r.1.schedule = p.schedule ∧ r.1.views = p.views ∧ P p.schedule r.1.pool ∧
        ∀ b, r.2 = some b → b.2 ∈ candidates p.schedule p.views)
    (candidates p.schedule p.views) (consider policy) (b := (p, none))
    ⟨rfl, rfl, hp, fun _ hb => by cases hb⟩
    fun r hr x hx => by
      obtain ⟨q, best⟩ := r
      obtain ⟨hqs, hqv, hq, hbest⟩ := hr
      obtain ⟨hs, hv, hd⟩ := h.disturbFor (p := q) (hqs ▸ hq) x
      unfold consider
      cases best with
      | none =>
        refine ⟨hs.trans hqs, hv.trans hqv, hqs ▸ hd, fun b hb => ?_⟩
        rw [← Option.some_inj.mp hb]
        exact hx
      | some b =>
        refine ⟨hs.trans hqs, hv.trans hqv, hqs ▸ hd, fun b' hb => ?_⟩
        dsimp only at hb
        split at hb
        · rw [← Option.some_inj.mp hb]
          exact hx
        · exact hbest b' hb
  refine ⟨hs, hv, hkept, fun x hx => ?_⟩
  obtain ⟨b, hb, rfl⟩ := Option.map_eq_some_iff.mp hx
  exact hmem b hb

theorem step (h : Stable P) (policy : Policy) (hp : P p.schedule p.pool) :
    P (p.step policy).1.schedule (p.step policy).1.pool := by
  obtain ⟨hs, hv, hkept, hmem⟩ := h.best? policy hp
  unfold Pass.step
  generalize p.best? policy = r at *
  obtain ⟨q, best⟩ := r
  dsimp only at hs hv hkept hmem
  rw [← hs] at hkept
  cases best with
  | none => exact hkept
  | some x =>
    dsimp only
    cases hr : q.pool.reserve? x.view.key x.action.id x.implementation.requirement with
    | none =>
      obtain ⟨views, hre⟩ := q.revise_eq x
      dsimp only
      rw [hre]
      exact hkept
    | some r =>
      refine h.bind hkept ?_ hr
      rw [hs, hv]
      exact hmem x rfl

theorem steps (h : Stable P) (policy : Policy) (n : Nat) (hp : P p.schedule p.pool) :
    P (steps policy n p).schedule (steps policy n p).pool := by
  induction n generalizing p with
  | zero => exact hp
  | succ n ih =>
    have hstep := h.step policy hp
    unfold Pass.steps
    generalize p.step policy = r at hstep ⊢
    obtain ⟨q, more⟩ := r
    cases more with
    | false => exact hstep
    | true => exact ih hstep

/-- A whole pass keeps it, disturbed or not. -/
theorem run (h : Stable P) (policy : Policy) (hp : P p.schedule p.pool) :
    P (p.run policy).schedule (p.run policy).pool := by
  have hsteps := h.steps policy p.bound hp
  unfold Pass.run reportIneligible
  generalize Pass.steps policy p.bound p = q at hsteps ⊢
  exact List.foldlRecOn (motive := fun r : Schedule × Outbox => P r.1 q.pool)
    q.schedule.ready.toList _ hsteps fun r hr id _ => h.report (accepting q.pool) r.2 id hr

end Stable

/-- Bindings change the state and the binding of one entry. -/
theorem coherent_bind (h : p.schedule.Coherent) {x : Candidate}
    (hx : x ∈ candidates p.schedule p.views) {free : Capacity} {pool : Pool}
    (hr : p.pool.reserve? x.view.key x.action.id x.implementation.requirement = some (free, pool)) :
    (p.bind x free pool).schedule.Coherent := by
  obtain ⟨e, he, hready, -, hb⟩ := binds_of_reserve? h.toSound hx hr
  have hsound := hb.sound h.toSound
  obtain ⟨-, hmiss, hst⟩ := Schedule.emit_frame
    { e with state := .assigned, binding := some x.view.key }
    (.assigned x.action.id x.view.key x.index) p.outbox
  unfold bind at hsound ⊢
  dsimp only at hsound ⊢
  rw [he] at hsound ⊢
  refine h.of_insert he rfl rfl rfl rfl hsound hmiss (iff_of_false (fun hb => ?_) fun hb => ?_) ?_
  · rw [hst] at hb
    cases hb
  · rw [hready] at hb
    cases hb
  · rw [hst]
    rfl

theorem coherent_reportOne {s : Schedule} (h : s.Coherent) (views : List WorkerView) (o : Outbox)
    (id : Nat) : (reportOne views s o id).1.Coherent := by
  have hsound := (restates_reportOne views s o id).sound h.toSound
  unfold reportOne at hsound ⊢
  split
  · exact h
  · next x hx =>
    rw [hx] at hsound
    dsimp only at hsound ⊢
    split
    · exact h
    · next he =>
      rw [if_neg he] at hsound
      obtain ⟨-, hmiss, hst⟩ := Schedule.emit_frame x (.noEligibleResource id) o
      exact h.of_insert hx rfl rfl rfl rfl hsound hmiss (by rw [hst])
        (by rw [hst]; exact h.alive hx)

theorem stable_coherent : Stable fun s _ => s.Coherent where
  disturb _ _ h := h
  bind h hx hr := coherent_bind h hx hr
  report views o id h := coherent_reportOne h views o id

end Pass

/-! ## Runs -/

/-- Every deed leaves the table coherent. -/
theorem World.Moves.coherent {w : World} {d : Deed} {s : Schedule} (h : w.Moves d s)
    (hw : w.schedule.Coherent) : s.Coherent := by
  cases h with
  | same _ _ => exact hw
  | pass => exact Pass.stable_coherent.run w.policy hw
  | wake name => exact Schedule.coherent_wake hw name
  | submit task monitor => exact Schedule.coherent_accept hw w.catalog task monitor
  | @conclude id x ending live =>
    have hid : x.action.id = id := hw.named (Schedule.standing?_eq_some_iff.mpr ⟨x, live, rfl⟩)
    exact Schedule.coherent_conclude hw (hid ▸ live) _ _ _
  | run marked => exact Schedule.coherent_markRunning hw marked
  | fail key ids => exact Schedule.coherent_abandon hw key ids

namespace Machine

variable {rule : Conduct} {policy : Policy} {localNodes : List String} {withholds : Bool}
  {limit : Nat} {disturbances : List Disturbance} {l : List Command} {m : Machine}

/-- What every item keeps holds in every run. -/
theorem Run.invariant {w₀ : World} {P : World → Prop} (h : Run rule w₀ l m) (start : P w₀)
    (item : ∀ w i, P w → P (w.carryOut i).1) : P m.world := by
  induction h with
  | start => exact start
  | ask _ _ _ ih => exact ih
  | item _ ih => exact item _ _ ih
  | answer _ _ _ ih => exact ih

/-- The parts of a table that said the same at first do so at every step. -/
theorem Course.coherent {w₀ : World} {t : List Moment} (h : Course rule w₀ t m)
    (hw : w₀.schedule.Coherent) : m.world.schedule.Coherent := by
  obtain ⟨l, hl⟩ := h.run
  exact hl.invariant (P := fun w => w.schedule.Coherent) hw
    fun w i hw => (w.does_carryOut i).moves.coherent hw

/-- At every step of every run, whatever was asked, whatever clients answered and whatever disturbs
the passes, the parts of the table say the same, and so the live actions are the ready ones, the
blocked ones and the bound ones. -/
theorem Run.table_coherent
    (h : Run rule { World.fresh policy localNodes withholds limit with disturbances } l m) :
    m.world.schedule.Coherent ∧ m.world.schedule.liveCount =
      m.world.schedule.readyCount + m.world.schedule.blockedCount +
        m.world.schedule.boundCount := by
  have hc : m.world.schedule.Coherent :=
    h.invariant (P := fun w => w.schedule.Coherent) (Schedule.coherent_empty limit)
      fun w i hw => (w.does_carryOut i).moves.coherent hw
  exact ⟨hc, hc.liveCount_eq⟩

/-! ### A grid whose worker is lost while a candidate is scored -/

/-- A grid in which the worker `n` is lost as soon as a candidate is scored. -/
def unsteady : World :=
  { World.fresh .fifo [] false 8 with
    disturbances := [⟨fun _ _ _ _ => true, .lose (.permanent "n"), "d"⟩] }

/-- The worker is offered. -/
def furnishing : Machine := asked unsteady 0 (.addWorker (.permanent "n") (.cpus 1) default)

/-- A task is submitted, and the worker is lost when its only candidate has been scored. -/
def upsetting : Machine :=
  asked (furnishing.advance 5).world 1 (.submit (.single (.cpus 1) "h") .silent)

/-- The worker is offered again, and the task is bound to it. -/
def refurnishing : Machine :=
  asked (upsetting.advance 9).world 2 (.addWorker (.permanent "n") (.cpus 1) default)

/-- A second task finds nothing free. -/
def competing : Machine :=
  asked (refurnishing.advance 6).world 3 (.submit (.single (.cpus 1) "h") .silent)

/-- A third one misses a datum. -/
def longing : Machine :=
  asked (competing.advance 7).world 4
    (.submit ((Submission.single (.cpus 1) "h").reading "a") .silent)

/-- The first one finishes. -/
def yielding : Machine := asked (longing.advance 6).world 5 (.complete 1 [])

theorem course_yielding :
    Course (.lively fun _ => True) unsteady
      (moments 1 yielding ++ (moments 6 longing ++ (moments 7 competing ++
        (moments 6 refurnishing ++ (moments 9 upsetting ++ (moments 5 furnishing ++ []))))))
      (yielding.advance 1) :=
  ((((((Course.start.call 0 5 trivial (by decide +kernel)).call 1 9 trivial
    (by decide +kernel)).call 2 6 trivial (by decide +kernel)).call 3 7 trivial
    (by decide +kernel)).call 4 6 trivial (by decide +kernel)).ask 5 trivial).advance 1

/-- In the middle of that call, before its pass, a ready action and a blocked one are live, and the
one that ended is remembered. -/
theorem table_coherent_yielding :
    ((yielding.advance 1).agenda.length = 4 ∧
      (yielding.advance 1).world.schedule.history = [(1, .completed)] ∧
      (yielding.advance 1).world.schedule.readyCount = 1 ∧
      (yielding.advance 1).world.schedule.blockedCount = 1) ∧
    (yielding.advance 1).world.schedule.Coherent ∧
      (yielding.advance 1).world.schedule.liveCount =
        (yielding.advance 1).world.schedule.readyCount +
          (yielding.advance 1).world.schedule.blockedCount +
            (yielding.advance 1).world.schedule.boundCount := by
  obtain ⟨l, hl⟩ := course_yielding.run
  exact ⟨by decide +kernel, Run.table_coherent hl⟩

end Machine

end TaskGrid
