import Mathlib.Data.List.Basic
import TaskGrid.Schedule.Pass

/-!
# The table of actions stays sound

What the rest of the grid depends on in the table is the *standing* of each live action: the action
itself, where it is in its life, and the worker it is bound to.  Each operation is described here by
what it does to standings, so that later arguments never open an operation again.

## The invariant

A table is sound when its entries are filed under their own identifiers, all of them handed out
before, the list of ready actions is exactly that of the live actions in state ready, and an action
is bound exactly while it holds capacity (`Schedule.Sound`).

* `Schedule.standing?_accept`, `Schedule.Promotes`, `Schedule.standing?_conclude`,
  `Schedule.standing?_abandon`: the operations, by standings.
* `Schedule.sound_accept`, `Schedule.sound_wake`, `Schedule.sound_conclude`, ...: soundness is kept.
-/

namespace TaskGrid

/-- What the grid depends on in an entry of the table. -/
structure Standing where
  /-- The action. -/
  action : Action
  /-- Where it is in its life. -/
  state : ActionState
  /-- The worker it is bound to. -/
  binding : Option WorkerKey

namespace Entry

/-- The standing of an entry. -/
def standing (x : Entry) : Standing := ⟨x.action, x.state, x.binding⟩

/-! ## Telling an event changes nothing but what was told -/

@[simp] theorem standing_emit (x : Entry) (e : Event) (o : Outbox) :
    (x.emit e o).1.standing = x.standing := by
  unfold emit standing
  split <;> rfl

@[simp] theorem drained_emit (x : Entry) (e : Event) (o : Outbox) :
    (x.emit e o).2.drained = o.drained := by
  unfold emit
  split <;> rfl

end Entry

namespace Schedule

/-- The standing of a live action. -/
def standing? (s : Schedule) (id : Nat) : Option Standing := (s.actions.get? id).map Entry.standing

theorem standing?_eq_some_iff {s : Schedule} {id : Nat} {x : Standing} :
    s.standing? id = some x ↔ ∃ e, s.actions.get? id = some e ∧ e.standing = x :=
  Option.map_eq_some_iff

theorem bindingOf?_eq (s : Schedule) (id : Nat) :
    s.bindingOf? id = (s.standing? id).bind Standing.binding := by
  unfold bindingOf? standing?
  cases s.actions.get? id <;> rfl

theorem standing?_of_insert {s t : Schedule} {id : Nat} {e : Entry}
    (h : t.actions = s.actions.insert id e) (i : Nat) :
    t.standing? i = if i = id then some e.standing else s.standing? i := by
  unfold standing?
  rw [h, SortedMap.get?_insert]
  split <;> rfl

theorem standing?_of_erase {s t : Schedule} {id : Nat} (h : t.actions = s.actions.erase id)
    (i : Nat) : t.standing? i = if i = id then none else s.standing? i := by
  unfold standing?
  rw [h, SortedMap.get?_erase]
  split <;> rfl

/-- A table in order. -/
structure Sound (s : Schedule) : Prop where
  /-- Every action is filed under its own identifier. -/
  named : ∀ {id x}, s.standing? id = some x → x.action.id = id
  /-- Identifiers are handed out in order. -/
  old : ∀ {id x}, s.standing? id = some x → id < s.nextId
  /-- Exactly the actions in state ready are listed as ready. -/
  ready_iff : ∀ {id}, id ∈ s.ready ↔ ∃ x, s.standing? id = some x ∧ x.state = .ready
  /-- An action is bound exactly while it holds capacity. -/
  bound_iff : ∀ {id x}, s.standing? id = some x →
    (x.binding.isSome = true ↔ x.state.holdsCapacity = true)

/-- The empty table is in order. -/
theorem sound_empty (limit : Nat) : ({ historyLimit := limit } : Schedule).Sound where
  named h := by cases h
  old h := by cases h
  ready_iff := ⟨fun h => absurd h (SortedSet.not_mem_empty _), fun ⟨_, h, _⟩ => by cases h⟩
  bound_iff h := by cases h

/-- A ready action is bound to nothing. -/
theorem Sound.binding_of_ready {s : Schedule} (h : s.Sound) {id : Nat} {x : Standing}
    (hx : s.standing? id = some x) (hr : x.state = .ready) : x.binding = none := by
  cases hb : x.binding with
  | none => rfl
  | some k =>
    have hc := (h.bound_iff hx).mp (by rw [hb]; rfl)
    rw [hr] at hc
    cases hc

/-! ## Accepting -/

/-- Whether a submission can be ready at once. -/
def acceptsReady (c : Catalog) (task : Submission) : Bool :=
  (SortedSet.ofList (task.dependencies.filter fun name => !c.isAvailable name)).isEmpty

theorem fst_accept (s : Schedule) (c : Catalog) (task : Submission) (monitor : Monitor) :
    (s.accept c task monitor).1 = s.nextId := by
  unfold accept
  dsimp only
  split <;> rfl

theorem nextId_accept (s : Schedule) (c : Catalog) (task : Submission) (monitor : Monitor) :
    (s.accept c task monitor).2.1.nextId = s.nextId + 1 := by
  unfold accept
  dsimp only
  split <;> rfl

theorem drained_accept (s : Schedule) (c : Catalog) (task : Submission) (monitor : Monitor) :
    (s.accept c task monitor).2.2.drained = [] := by
  unfold accept
  dsimp only
  split <;> simp only [Entry.drained_emit]

theorem ready_accept (s : Schedule) (c : Catalog) (task : Submission) (monitor : Monitor) :
    (s.accept c task monitor).2.1.ready =
      if acceptsReady c task = true then s.ready.insert s.nextId else s.ready := by
  unfold accept acceptsReady
  dsimp only
  split <;> rfl

/-- A submission is filed under the next identifier; nothing else changes. -/
theorem standing?_accept (s : Schedule) (c : Catalog) (task : Submission) (monitor : Monitor)
    (i : Nat) :
    (s.accept c task monitor).2.1.standing? i =
      if i = s.nextId then
        some ⟨⟨s.nextId, s.nextSequence, task⟩,
          if acceptsReady c task = true then .ready else .blocked, none⟩
      else s.standing? i := by
  unfold accept acceptsReady standing?
  dsimp only
  split
  · rw [SortedMap.get?_insert]
    split
    · rw [Option.map_some, Entry.standing_emit, Entry.emit, Entry.standing]
      rfl
    · rfl
  · rw [SortedMap.get?_insert]
    split
    · rw [Option.map_some, Entry.standing_emit, Entry.standing]
    · rfl

theorem sound_accept {s : Schedule} (h : s.Sound) (c : Catalog) (task : Submission)
    (monitor : Monitor) : (s.accept c task monitor).2.1.Sound where
  named {id x} hx := by
    rw [standing?_accept] at hx
    split at hx
    · next hid => rw [← Option.some_inj.mp hx, hid]
    · exact h.named hx
  old {id x} hx := by
    rw [standing?_accept] at hx
    rw [nextId_accept]
    split at hx
    · omega
    · have := h.old hx
      omega
  ready_iff {id} := by
    have hfresh : s.standing? s.nextId = none := by
      cases hn : s.standing? s.nextId with
      | none => rfl
      | some x => exact absurd (h.old hn) (Nat.lt_irrefl _)
    have hnot : s.nextId ∉ s.ready := by
      intro hr
      obtain ⟨x, hx, -⟩ := h.ready_iff.mp hr
      rw [hfresh] at hx
      cases hx
    rw [ready_accept, standing?_accept]
    by_cases hid : id = s.nextId
    · subst hid
      by_cases ha : acceptsReady c task = true <;> simp [ha, hnot]
    · rw [if_neg hid, ← h.ready_iff]
      by_cases ha : acceptsReady c task = true <;> simp [ha, hid]
  bound_iff {id x} hx := by
    rw [standing?_accept] at hx
    split at hx
    · rw [← Option.some_inj.mp hx]
      by_cases ha : acceptsReady c task = true <;> simp [ha, ActionState.holdsCapacity]
    · exact h.bound_iff hx

/-! ## Waking -/

/-- From one table to another, at most some blocked actions became ready. -/
def Promotes (s t : Schedule) : Prop :=
  t.nextId = s.nextId ∧ ∀ i, t.standing? i = s.standing? i ∨
    ∃ x, s.standing? i = some x ∧ x.state = .blocked ∧
      t.standing? i = some { x with state := .ready }

theorem Promotes.refl (s : Schedule) : Promotes s s := ⟨rfl, fun _ => .inl rfl⟩

theorem Promotes.trans {s t u : Schedule} (h : Promotes s t) (h' : Promotes t u) :
    Promotes s u := by
  refine ⟨h'.1.trans h.1, ?_⟩
  intro i
  rcases h'.2 i with hu | ⟨y, hy, hyb, hu⟩
  · rcases h.2 i with ht | ⟨x, hx, hxb, ht⟩
    · exact .inl (hu.trans ht)
    · exact .inr ⟨x, hx, hxb, hu.trans ht⟩
  · rcases h.2 i with ht | ⟨x, hx, hxb, ht⟩
    · exact .inr ⟨y, ht ▸ hy, hyb, hu⟩
    · -- what became ready is not blocked any more
      rw [hy] at ht
      rw [Option.some_inj.mp ht] at hyb
      cases hyb

/-- A live action has the same action and binding before and after. -/
theorem Promotes.exists_of_standing? {s t : Schedule} (h : Promotes s t) {i : Nat} {y : Standing}
    (hy : t.standing? i = some y) :
    ∃ x, s.standing? i = some x ∧ x.action = y.action ∧ x.binding = y.binding ∧
      (x.state = y.state ∨ x.state = .blocked ∧ y.state = .ready) := by
  rcases h.2 i with ht | ⟨x, hx, hxb, ht⟩
  · exact ⟨y, ht ▸ hy, rfl, rfl, .inl rfl⟩
  · rw [hy] at ht
    obtain rfl := Option.some_inj.mp ht
    exact ⟨x, hx, rfl, rfl, .inr ⟨hxb, rfl⟩⟩

/-- One entry was replaced: it has the same standing, or it became ready. -/
def Revises (id : Nat) (s t : Schedule) : Prop :=
  ∃ x e, s.standing? id = some x ∧ t.actions = s.actions.insert id e ∧ t.nextId = s.nextId ∧
    (e.standing = x ∧ t.ready = s.ready ∨
      x.state = .blocked ∧ e.standing = { x with state := .ready } ∧ t.ready = s.ready.insert id)

theorem Revises.promotes {id : Nat} {s t : Schedule} (h : Revises id s t) : Promotes s t := by
  obtain ⟨x, e, hx, ha, hn, h⟩ := h
  refine ⟨hn, ?_⟩
  intro i
  rw [standing?_of_insert ha]
  split
  · next hi =>
    subst hi
    rcases h with ⟨he, -⟩ | ⟨hb, he, -⟩
    · exact .inl (by rw [he, hx])
    · exact .inr ⟨x, hx, hb, by rw [he]⟩
  · exact .inl rfl

theorem Revises.sound {id : Nat} {s t : Schedule} (h : Revises id s t) (hs : s.Sound) :
    t.Sound := by
  have hp := h.promotes
  obtain ⟨x, e, hx, ha, -, h⟩ := h
  refine ⟨fun {i y} hy => ?_, fun {i y} hy => ?_, fun {i} => ?_, fun {i y} hy => ?_⟩
  · obtain ⟨y', hy', hact, -, -⟩ := hp.exists_of_standing? hy
    rw [← hact]
    exact hs.named hy'
  · obtain ⟨y', hy', -⟩ := hp.exists_of_standing? hy
    rw [hp.1]
    exact hs.old hy'
  · rw [standing?_of_insert ha]
    rcases h with ⟨he, hr⟩ | ⟨hb, he, hr⟩
    · rw [hr, he, hs.ready_iff]
      split
      · next hi => rw [hi, hx]
      · exact .rfl
    · rw [hr, he, SortedSet.mem_insert, hs.ready_iff]
      by_cases hi : i = id <;> simp [hi]
  · obtain ⟨y', hy', -, hb, hst⟩ := hp.exists_of_standing? hy
    have hy'' := hs.bound_iff hy'
    rcases hst with he | ⟨hyb, hyr⟩
    · rw [← hb, ← he]
      exact hy''
    · rw [hyb] at hy''
      rw [← hb, hy'', hyr]
      rfl

theorem wakeOne_eq_or_revises (name : String) (s : Schedule) (o : Outbox) (id : Nat) :
    (wakeOne name s o id).1 = s ∨ Revises id s (wakeOne name s o id).1 := by
  unfold wakeOne
  cases he : s.actions.get? id with
  | none => exact .inl rfl
  | some x =>
    have hx : s.standing? id = some x.standing := by rw [standing?, he, Option.map_some]
    dsimp only
    split
    · next hc =>
      exact .inr ⟨x.standing, _, hx, rfl, rfl, .inr ⟨hc.2, Entry.standing_emit _ _ _, rfl⟩⟩
    · exact .inr ⟨x.standing, _, hx, rfl, rfl, .inl ⟨rfl, rfl⟩⟩

theorem promotes_wakeOne (name : String) (s : Schedule) (o : Outbox) (id : Nat) :
    Promotes s (wakeOne name s o id).1 := by
  rcases wakeOne_eq_or_revises name s o id with h | h
  · rw [h]
    exact .refl s
  · exact h.promotes

theorem sound_wakeOne {s : Schedule} (h : s.Sound) (name : String) (o : Outbox) (id : Nat) :
    (wakeOne name s o id).1.Sound := by
  rcases wakeOne_eq_or_revises name s o id with hw | hw
  · rw [hw]
    exact h
  · exact hw.sound h

theorem drained_wakeOne (name : String) (s : Schedule) (o : Outbox) (id : Nat) :
    (wakeOne name s o id).2.drained = o.drained := by
  unfold wakeOne
  split
  · rfl
  · dsimp only
    split <;> simp only [Entry.drained_emit]

theorem promotes_wake (s : Schedule) (name : String) : Promotes s (s.wake name).1 := by
  unfold wake
  split
  · exact .refl s
  · next waiting _ =>
    exact List.foldlRecOn (motive := fun r : Schedule × Outbox => Promotes s r.1) waiting.toList _
      (Promotes.refl s) fun r hr id _ => hr.trans (promotes_wakeOne name r.1 r.2 id)

theorem sound_wake {s : Schedule} (h : s.Sound) (name : String) : (s.wake name).1.Sound := by
  unfold wake
  split
  · exact h
  · next waiting _ =>
    exact List.foldlRecOn (motive := fun r : Schedule × Outbox => r.1.Sound) waiting.toList _
      ⟨h.named, h.old, h.ready_iff, h.bound_iff⟩ fun r hr id _ => sound_wakeOne hr name r.2 id

theorem drained_wake (s : Schedule) (name : String) : (s.wake name).2.drained = [] := by
  unfold wake
  split
  · rfl
  · next waiting _ =>
    exact List.foldlRecOn (motive := fun r : Schedule × Outbox => r.2.drained = []) waiting.toList _
      rfl fun r hr id _ => (drained_wakeOne name r.1 r.2 id).trans hr

/-- Where no further action became ready, nothing but missing names changed. -/
theorem standing?_wake_of_ready_eq {s : Schedule} (h : s.Sound) {name : String}
    (hr : (s.wake name).1.ready = s.ready) (i : Nat) :
    (s.wake name).1.standing? i = s.standing? i := by
  rcases (promotes_wake s name).2 i with hi | ⟨x, hx, hxb, hi⟩
  · exact hi
  · have hmem : i ∈ (s.wake name).1.ready := (sound_wake h name).ready_iff.mpr ⟨_, hi, rfl⟩
    rw [hr] at hmem
    obtain ⟨y, hy, hyr⟩ := h.ready_iff.mp hmem
    rw [hx] at hy
    rw [← Option.some_inj.mp hy, hxb] at hyr
    cases hyr

/-! ## Ending -/

@[simp] theorem actions_unblock (s : Schedule) (id : Nat) (name : String) :
    (s.unblock id name).actions = s.actions := by
  unfold unblock
  split <;> rfl

@[simp] theorem ready_unblock (s : Schedule) (id : Nat) (name : String) :
    (s.unblock id name).ready = s.ready := by
  unfold unblock
  split <;> rfl

@[simp] theorem nextId_unblock (s : Schedule) (id : Nat) (name : String) :
    (s.unblock id name).nextId = s.nextId := by
  unfold unblock
  split <;> rfl

/-- Taking an action out of the queues leaves the live actions as they are. -/
theorem unqueue_frame (s : Schedule) (id : Nat) (names : List String) :
    (s.unqueue id names).actions = s.actions ∧ (s.unqueue id names).ready = s.ready.erase id ∧
      (s.unqueue id names).nextId = s.nextId :=
  List.foldlRecOn
    (motive := fun t : Schedule =>
      t.actions = s.actions ∧ t.ready = s.ready.erase id ∧ t.nextId = s.nextId)
    names _ ⟨rfl, rfl, rfl⟩ fun t ht name _ => by simpa using ht

@[simp] theorem actions_remember (s : Schedule) (id : Nat) (last : ActionState) :
    (s.remember id last).actions = s.actions := by
  unfold remember
  split <;> rfl

@[simp] theorem ready_remember (s : Schedule) (id : Nat) (last : ActionState) :
    (s.remember id last).ready = s.ready := by
  unfold remember
  split <;> rfl

@[simp] theorem nextId_remember (s : Schedule) (id : Nat) (last : ActionState) :
    (s.remember id last).nextId = s.nextId := by
  unfold remember
  split <;> rfl

@[simp] theorem standing?_remember (s : Schedule) (id i : Nat) (last : ActionState) :
    (s.remember id last).standing? i = s.standing? i := by
  unfold standing?
  rw [actions_remember]

variable {p : Pool} {x : Entry} {events : List Event} {last : ActionState}

/-- What an ended action leaves of the table: everything but itself. -/
theorem conclude_frame (s : Schedule) (p : Pool) (x : Entry) (events : List Event)
    (last : ActionState) :
    (s.conclude p x events last).1.actions = s.actions.erase x.action.id ∧
      (s.conclude p x events last).1.ready = s.ready.erase x.action.id ∧
      (s.conclude p x events last).1.nextId = s.nextId := by
  unfold conclude
  dsimp only
  rw [actions_remember, ready_remember, nextId_remember]
  exact unqueue_frame _ _ _

theorem standing?_conclude (s : Schedule) (i : Nat) :
    (s.conclude p x events last).1.standing? i =
      if i = x.action.id then none else s.standing? i :=
  standing?_of_erase (conclude_frame s p x events last).1 i

theorem sound_conclude {s : Schedule} (h : s.Sound) : (s.conclude p x events last).1.Sound where
  named {id y} hy := by
    rw [standing?_conclude] at hy
    split at hy
    · cases hy
    · exact h.named hy
  old {id y} hy := by
    rw [standing?_conclude] at hy
    rw [(conclude_frame s p x events last).2.2]
    split at hy
    · cases hy
    · exact h.old hy
  ready_iff {id} := by
    rw [(conclude_frame s p x events last).2.1, standing?_conclude, SortedSet.mem_erase,
      h.ready_iff]
    by_cases hid : id = x.action.id <;> simp [hid]
  bound_iff {id y} hy := by
    rw [standing?_conclude] at hy
    split at hy
    · cases hy
    · exact h.bound_iff hy

theorem pool_conclude (s : Schedule) :
    (s.conclude p x events last).2.1 = (releaseBinding p x {}).1 := rfl

theorem drained_conclude (s : Schedule) :
    (s.conclude p x events last).2.2.drained = (releaseBinding p x {}).2.drained :=
  List.foldlRecOn
    (motive := fun r : Entry × Outbox => r.2.drained = (releaseBinding p x {}).2.drained)
    events _ rfl fun r hr e _ => (Entry.drained_emit r.1 e r.2).trans hr

/-! ## Losing a worker -/

theorem standing?_abandonOne (key : WorkerKey) (s : Schedule) (o : Outbox) (id i : Nat) :
    (abandonOne key s o id).1.standing? i =
      if i = id ∧ s.bindingOf? i = some key then none else s.standing? i := by
  unfold abandonOne bindingOf?
  cases he : s.actions.get? id with
  | none =>
    by_cases hi : i = id
    · subst hi
      simp [he]
    · simp [hi]
  | some y =>
    dsimp only
    split
    · next hb =>
      rw [standing?_remember, standing?_of_erase rfl]
      by_cases hi : i = id
      · subst hi
        simp [he, hb]
      · simp [hi]
    · next hb =>
      by_cases hi : i = id
      · subst hi
        simp [he, hb]
      · simp [hi]

theorem nextId_abandonOne (key : WorkerKey) (s : Schedule) (o : Outbox) (id : Nat) :
    (abandonOne key s o id).1.nextId = s.nextId := by
  unfold abandonOne
  split
  · rfl
  · dsimp only
    split
    · exact nextId_remember _ _ _
    · rfl

theorem ready_abandonOne (key : WorkerKey) (s : Schedule) (o : Outbox) (id : Nat) :
    (abandonOne key s o id).1.ready = s.ready := by
  unfold abandonOne
  split
  · rfl
  · dsimp only
    split
    · exact ready_remember _ _ _
    · rfl

theorem sound_abandonOne {s : Schedule} (h : s.Sound) (key : WorkerKey) (o : Outbox) (id : Nat) :
    (abandonOne key s o id).1.Sound where
  named {i y} hy := by
    rw [standing?_abandonOne] at hy
    split at hy
    · cases hy
    · exact h.named hy
  old {i y} hy := by
    rw [standing?_abandonOne] at hy
    rw [nextId_abandonOne]
    split at hy
    · cases hy
    · exact h.old hy
  ready_iff {i} := by
    rw [ready_abandonOne, standing?_abandonOne, h.ready_iff]
    split
    · next hi =>
      -- what is bound is not ready
      refine ⟨fun ⟨y, hy, hr⟩ => ?_, fun ⟨_, hy, _⟩ => by cases hy⟩
      have hb := h.binding_of_ready hy hr
      rw [bindingOf?_eq, hy, Option.bind_some, hb] at hi
      cases hi.2
    · exact .rfl
  bound_iff {i y} hy := by
    rw [standing?_abandonOne] at hy
    split at hy
    · cases hy
    · exact h.bound_iff hy

/-- The actions of a list that are bound to a lost worker leave the table; nothing else changes. -/
theorem standing?_abandon (s : Schedule) (key : WorkerKey) (ids : List Nat) (i : Nat) :
    (s.abandon key ids).1.standing? i =
      if i ∈ ids ∧ s.bindingOf? i = some key then none else s.standing? i := by
  unfold abandon
  generalize ({} : Outbox) = o
  induction ids generalizing s o with
  | nil => simp
  | cons id ids ih =>
    rw [List.foldl_cons, ih, bindingOf?_eq, standing?_abandonOne, bindingOf?_eq]
    by_cases hi : i = id
    · subst hi
      by_cases hb : (s.standing? i).bind Standing.binding = some key <;> simp [hb]
    · simp [hi]

theorem nextId_abandon (s : Schedule) (key : WorkerKey) (ids : List Nat) :
    (s.abandon key ids).1.nextId = s.nextId :=
  List.foldlRecOn (motive := fun r : Schedule × Outbox => r.1.nextId = s.nextId) ids _ rfl
    fun r hr id _ => (nextId_abandonOne key r.1 r.2 id).trans hr

theorem sound_abandon {s : Schedule} (h : s.Sound) (key : WorkerKey) (ids : List Nat) :
    (s.abandon key ids).1.Sound :=
  List.foldlRecOn (motive := fun r : Schedule × Outbox => r.1.Sound) ids _ h
    fun r hr id _ => sound_abandonOne hr key r.2 id

theorem drained_abandonOne (key : WorkerKey) (s : Schedule) (o : Outbox) (id : Nat) :
    (abandonOne key s o id).2.drained = o.drained := by
  unfold abandonOne
  split
  · rfl
  · dsimp only
    split
    · exact Entry.drained_emit _ _ _
    · rfl

theorem drained_abandon (s : Schedule) (key : WorkerKey) (ids : List Nat) :
    (s.abandon key ids).2.drained = [] :=
  List.foldlRecOn (motive := fun r : Schedule × Outbox => r.2.drained = []) ids _ rfl
    fun r hr id _ => (drained_abandonOne key r.1 r.2 id).trans hr

/-! ## Running -/

theorem markRunning?_eq_some {s t : Schedule} {id : Nat} (h : s.markRunning? id = some t) :
    t.nextId = s.nextId ∧ t.ready = s.ready ∧
      ∃ x, s.standing? id = some x ∧ x.state.holdsCapacity = true ∧
        ∀ i, t.standing? i =
          if i = id then some { x with state := .running } else s.standing? i := by
  unfold markRunning? at h
  obtain ⟨e, he, h⟩ := Option.bind_eq_some_iff.mp h
  split at h
  · next hc =>
    cases h
    refine ⟨rfl, rfl, e.standing, by rw [standing?, he, Option.map_some], hc, ?_⟩
    intro i
    rw [standing?, SortedMap.get?_insert]
    split <;> rfl
  · cases h

theorem sound_markRunning {s t : Schedule} (hs : s.Sound) {id : Nat}
    (h : s.markRunning? id = some t) : t.Sound := by
  obtain ⟨hn, hr, x, hx, hc, ht⟩ := markRunning?_eq_some h
  refine ⟨fun {i y} hy => ?_, fun {i y} hy => ?_, fun {i} => ?_, fun {i y} hy => ?_⟩
  · rw [ht] at hy
    split at hy
    · next hi =>
      subst hi
      rw [← Option.some_inj.mp hy]
      exact hs.named (x := x) hx
    · exact hs.named hy
  · rw [ht] at hy
    rw [hn]
    split at hy
    · next hi => exact hi ▸ hs.old hx
    · exact hs.old hy
  · rw [hr, ht, hs.ready_iff]
    split
    · next hi =>
      subst hi
      refine ⟨?_, ?_⟩
      · rintro ⟨y, hy, hyr⟩
        rw [hx] at hy
        rw [Option.some_inj.mp hy, hyr] at hc
        cases hc
      · rintro ⟨y, hy, hyr⟩
        rw [← Option.some_inj.mp hy] at hyr
        cases hyr
    · exact .rfl
  · rw [ht] at hy
    split at hy
    · rw [← Option.some_inj.mp hy, hs.bound_iff hx, hc]
      rfl
    · exact hs.bound_iff hy

end Schedule

end TaskGrid
