import TaskGrid.Proofs.Deeds

/-!
# What an item can do to actions and workers

Of everything an item does, this module keeps what it does to the table of actions and to the pool,
and which items it leads to that will do something to bound actions or to drained workers.  There
are thirteen ways (`World.Turn`), and every item takes one of them (`World.turn_carryOut`): the
only exception are commands that change the pool behind the scheduler.

An argument about all runs is thus an argument about thirteen cases, and none of them opens the
definition of an item.
-/

namespace TaskGrid

namespace Item

/-- Whether an item is neither a command, nor lets a drained worker leave, nor lets the actions of
a lost worker fail. -/
def isPlain : Item → Bool
  | .obey .. => false
  | .retire .. => false
  | .failBound .. => false
  | _ => true

attribute [simp] isPlain

/-- Nothing in a list of items is a command or concludes a departure. -/
def Plain (l : List Item) : Prop := ∀ j ∈ l, j.isPlain = true

@[simp] theorem plain_nil : Plain [] := fun _ h => by cases h

@[simp] theorem plain_cons {i : Item} {l : List Item} :
    Plain (i :: l) ↔ i.isPlain = true ∧ Plain l := List.forall_mem_cons

@[simp] theorem plain_append {l r : List Item} : Plain (l ++ r) ↔ Plain l ∧ Plain r :=
  List.forall_mem_append

theorem plain_map {α : Type} {f : α → Item} (l : List α) (h : ∀ a, (f a).isPlain = true) :
    Plain (l.map f) := by
  intro j hj
  obtain ⟨a, -, rfl⟩ := List.mem_map.mp hj
  exact h a

/-- What there is to tell is plain but for the workers that can leave. -/
theorem mem_ofOutbox {o : Outbox} {j : Item} (h : j ∈ ofOutbox o) :
    j.isPlain = true ∨ ∃ d ∈ o.drained, j = .retire d.1 d.2 := by
  unfold ofOutbox at h
  rcases List.mem_append.mp h with he | hr
  · obtain ⟨x, -, rfl⟩ := List.mem_map.mp he
    exact .inl rfl
  · rcases List.mem_cons.mp hr with rfl | hd
    · exact .inl rfl
    · obtain ⟨d, hd', rfl⟩ := List.mem_map.mp hd
      exact .inr ⟨d, hd', rfl⟩

theorem plain_ofOutbox {o : Outbox} (h : o.drained = []) : Plain (ofOutbox o) := by
  intro j hj
  rcases mem_ofOutbox hj with hp | ⟨d, hd, -⟩
  · exact hp
  · rw [h] at hd
    cases hd

@[simp] theorem plain_ofHooks (d : Pool.Departure) : Plain (ofHooks d) := plain_map _ fun _ => rfl

theorem isPlain_ofIncident (x : Incident) : (ofIncident x).isPlain = true := by
  cases x <;> rfl

end Item

open Item (Plain)

namespace World

/-- What an item `i` can do in a world `w`: the table, the pool and the coming disturbances
afterwards, and the items that follow. -/
inductive Turn (w : World) (i : Item) :
    Schedule → Pool → List Disturbance → List Item → Prop where
  /-- Neither actions nor workers change. -/
  | idle {items : List Item} (plain : Plain items) :
    Turn w i w.schedule w.pool w.disturbances items
  /-- A pass runs. -/
  | pass {items : List Item} (plain : Plain items)
      (h : (∃ token, i = .obey token .pass) ∨ ∃ token, i = .pass token) :
    Turn w i w.passed.schedule w.passed.pool w.passed.disturbances items
  /-- Actions wake, and a pass follows if one became ready. -/
  | wake (name : String) {items : List Item} (plain : Plain items)
      (follows : (w.schedule.wake name).1.ready = w.schedule.ready ∨ .pass none ∈ items) :
    Turn w i (w.schedule.wake name).1 w.pool w.disturbances items
  /-- A task is accepted, and a pass follows. -/
  | submit (task : Submission) (monitor : Monitor) {items : List Item} (plain : Plain items)
      (follows : .pass none ∈ items) :
    Turn w i (w.schedule.accept w.catalog task monitor).2.1 w.pool w.disturbances items
  /-- A live action ends, its worker can perhaps leave, and a pass follows. -/
  | conclude {id : Nat} {x : Entry} (events : List Event) (last : ActionState)
      {items : List Item} (live : w.schedule.actions.get? id = some x)
      (mem : ∀ j ∈ items, j.isPlain = true ∨
        ∃ d ∈ (w.schedule.conclude w.pool x events last).2.2.drained, j = .retire d.1 d.2)
      (follows : .pass none ∈ items) :
    Turn w i (w.schedule.conclude w.pool x events last).1
      (w.schedule.conclude w.pool x events last).2.1 w.disturbances items
  /-- A bound action is being executed. -/
  | run {id : Nat} {s : Schedule} {items : List Item}
      (marked : w.schedule.markRunning? id = some s) (plain : Plain items) :
    Turn w i s w.pool w.disturbances items
  /-- Capacity is offered, and a pass follows. -/
  | offer {key : WorkerKey} {offered : Capacity} (adaptor : Adaptor) {items : List Item}
      (offers : Moment.offer? ⟨w, i⟩ = some (key, offered)) (plain : Plain items)
      (follows : .pass none ∈ items) :
    Turn w i w.schedule (w.pool.add key offered adaptor).2 w.disturbances items
  /-- Free capacity is withdrawn. -/
  | reduce (key : WorkerKey) (c : Capacity) {items : List Item} (plain : Plain items) :
    Turn w i w.schedule (w.pool.reduce key c).2 w.disturbances items
  /-- A worker is asked to leave and is not drained. -/
  | drain {key : WorkerKey} {hook : Option RemovalHook} {n : Nat} {q : Pool} {items : List Item}
      (asked : w.pool.requestRemoval? w.catalog key hook = some (.draining n q))
      (plain : Plain items) :
    Turn w i w.schedule q w.disturbances items
  /-- A worker is asked to leave and does so. -/
  | leave {key : WorkerKey} {hook : Option RemovalHook} {d : Pool.Departure} {items : List Item}
      (asked : w.pool.requestRemoval? w.catalog key hook = some (.left d)) (plain : Plain items) :
    Turn w i w.schedule d.pool w.disturbances items
  /-- A worker is lost, and its actions will fail. -/
  | lose {key : WorkerKey} {d : Pool.Departure} {items : List Item}
      (lost : w.pool.lose? w.catalog key = some d)
      (mem : ∀ j ∈ items, j.isPlain = true ∨ j = .failBound key d.bound)
      (follows : .failBound key d.bound ∈ items) :
    Turn w i w.schedule d.pool w.disturbances items
  /-- The actions of a lost worker fail. -/
  | fail {key : WorkerKey} {ids : List Nat} {items : List Item} (h : i = .failBound key ids)
      (plain : Plain items) :
    Turn w i (w.schedule.abandon key ids).1 w.pool w.disturbances items
  /-- A drained worker leaves. -/
  | retire {key : WorkerKey} {seq : Nat} {d : Pool.Departure} {items : List Item}
      (h : i = .retire key seq) (left : w.pool.retire? w.catalog key seq = some d)
      (plain : Plain items) :
    Turn w i w.schedule d.pool w.disturbances items

/-- The turn that an effect takes. -/
def TurnsTo (w : World) (i : Item) (e : Effect) : Prop :=
  w.Turn i e.1.schedule e.1.pool e.1.disturbances e.2

variable {w : World} {i : Item}

/-! ## Turns are deeds -/

/-- What is tacit is plain. -/
theorem plain_of_tacit {l : List Item} (h : Item.Tacit l) : Plain l := by
  intro j hj
  have ht := h j hj
  cases j <;> first | rfl | cases ht

theorem plain_deliver (m : Monitor) (e : Event) : Plain (w.deliver m e).2 := by
  intro j hj
  rcases mem_deliver hj with ⟨p, rfl⟩ | ⟨app, inner, -, rfl | ⟨-, rfl⟩⟩ <;> rfl

theorem plain_tellHook (hook : RemovalHook) (r : RemovedWorker) : Plain (w.tellHook hook r).2 := by
  intro j hj
  obtain ⟨orders, rfl⟩ := mem_tellHook hj
  rfl

theorem plain_runPass (token : Option Nat) : Plain (w.runPass token).2 := by
  refine Item.plain_append.mpr ⟨Item.plain_append.mpr ⟨?_, ?_⟩, ?_⟩
  · exact Item.plain_map _ Item.isPlain_ofIncident
  · exact Item.plain_ofOutbox (Pass.amid_run w.policy _).drained
  · exact Item.plain_map _ fun _ => rfl

theorem turnsTo_wake (name : String) : w.TurnsTo i (w.wake name) := by
  unfold wake
  dsimp only
  split
  · next hr => exact .wake name Item.plain_nil (.inl hr)
  · refine Turn.wake name (Item.plain_append.mpr ⟨?_, by simp⟩) (.inr (by simp))
    exact Item.plain_ofOutbox (Schedule.drained_wake w.schedule name)

theorem turnsTo_conclude {id : Nat} {x : Entry} (he : w.schedule.actions.get? id = some x)
    (values : List ProducedValue) (events : List Event) (last : ActionState) {tail : List Item}
    (plain : Plain tail) :
    w.TurnsTo i
      ((w.conclude x values events last).1, (w.conclude x values events last).2 ++ tail) := by
  refine Turn.conclude events last he ?_ (by simp [conclude])
  intro j hj
  simp only [conclude, List.mem_append, List.mem_map, List.mem_singleton] at hj
  rcases hj with ((⟨v, -, rfl⟩ | ho) | rfl) | ht
  · exact .inl rfl
  · exact Item.mem_ofOutbox ho
  · exact .inl rfl
  · exact .inl (plain j ht)

theorem turnsTo_removeWorker (key : WorkerKey) (hook : Option RemovalHook) {tail : List Item}
    (plain : Plain tail) :
    w.TurnsTo i ((w.removeWorker key hook).2.1, (w.removeWorker key hook).2.2 ++ tail) := by
  unfold removeWorker
  cases hr : w.pool.requestRemoval? w.catalog key hook with
  | none => exact .idle (by simpa using plain)
  | some r =>
    cases r with
    | draining n q => exact Turn.drain hr (by simpa using plain)
    | left d => exact Turn.leave hr (by simp [depart, plain])

/-- A deed is a turn, unless it changes the pool behind the scheduler. -/
theorem Does.turnsTo {d : Deed} {e : Effect} (h : w.Does d e) (hd : Moment.DoneBy ⟨w, i⟩ d)
    (hp : ∀ token o, i ≠ .obey token (.pool o)) : w.TurnsTo i e := by
  cases h with
  | idle still tacit _ =>
    unfold TurnsTo
    rw [still.schedule, still.pool, still.disturbances]
    exact .idle (plain_of_tacit tacit)
  | note n => exact .idle Item.plain_nil
  | send m e tacit => exact .idle (by simpa using plain_of_tacit tacit)
  | deliver m e =>
    obtain ⟨hs, hp, hd, -⟩ := deliver_frame w m e
    unfold TurnsTo
    rw [hs, hp, hd]
    exact .idle (plain_deliver m e)
  | tellHook hook r =>
    obtain ⟨hs, hp, hd, -⟩ := tellHook_frame w hook r
    unfold TurnsTo
    rw [hs, hp, hd]
    exact .idle (plain_tellHook hook r)
  | pass token => exact Turn.pass (w := w) (plain_runPass token) hd
  | wake name => exact turnsTo_wake name
  | submit task monitor tacit =>
    have hdr := Schedule.drained_accept w.schedule w.catalog task monitor
    exact Turn.submit task monitor
      (by simp [World.submit, Item.plain_ofOutbox hdr, plain_of_tacit tacit])
      (by simp [World.submit])
  | conclude ending live _ tacit => exact turnsTo_conclude live _ _ _ (plain_of_tacit tacit)
  | run marked tacit => exact Turn.run marked (plain_of_tacit tacit)
  | fail key ids =>
    exact Turn.fail hd (Item.plain_ofOutbox (Schedule.drained_abandon w.schedule key ids))
  | offer key offered adaptor tacit =>
    exact Turn.offer adaptor hd (by simp [addWorker, plain_of_tacit tacit]) (by simp [addWorker])
  | reduce key c tacit => exact Turn.reduce key c (plain_of_tacit tacit)
  | remove key hook tacit => exact turnsTo_removeWorker key hook (plain_of_tacit tacit)
  | @lose key d tail lost tacit =>
    refine Turn.lose lost ?_ (by simp)
    intro j hj
    rcases List.mem_append.mp hj with hj | hj
    · exact .inl (Item.plain_ofHooks d j hj)
    · exact (List.mem_cons.mp hj).symm.imp_left (plain_of_tacit tacit j)
  | retire key seq =>
    unfold World.retire
    cases hr : w.pool.retire? w.catalog key seq with
    | none => exact .idle Item.plain_nil
    | some d => exact Turn.retire hd hr (by simp [depart])
  | pool token o =>
    obtain ⟨token, hi⟩ := hd
    exact absurd hi (hp token o)
  | conclude_refused _ tacit => exact .idle (plain_of_tacit tacit)
  | run_refused _ tacit => exact .idle (plain_of_tacit tacit)
  | lose_refused _ tacit => exact .idle (plain_of_tacit tacit)

/-- Every item takes one of the turns, unless it is a command that changes the pool behind the
scheduler. -/
theorem turn_carryOut (w : World) {i : Item}
    (h : ∀ token c, i = .obey token c → c.surface ≠ .pool) : w.TurnsTo i (w.carryOut i) :=
  (w.does_carryOut i).turnsTo (Moment.doneBy_deed ⟨w, i⟩) fun token _ hi => h token _ hi rfl

end World

end TaskGrid
