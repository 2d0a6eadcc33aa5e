import TaskGrid.Proofs.Announcements

/-!
# What an item does and what it tells

Most items only pass things on.  What is left, once these are set aside, are sixteen deeds: an
event or a record is told, an action is accepted, woken, bound, run or ended, a worker is offered
capacity, is used less or leaves.  Which of them an item does can be read off the item and the
world (`Moment.deed`), and `World.does_carryOut` says that it does just this: the deed changes the
world by the operation of that name, and everything else that it leads to is tacit.

An argument about everything that is told in a run, or about everything that becomes available, is
thus an argument about deeds, and none of them opens the definition of an item.

* `World.deliveries`, `World.hookings`: what monitors and hooks were told.
* `Item.Tacit`: items that tell nobody anything and change neither actions nor workers at once.
* `Deed`, `Moment.deed`: what an item does.
* `World.Does`, `World.does_carryOut`: what becomes of the world.
* `World.deliveries_carryOut`, `World.hookings_carryOut`, `World.announces_carryOut`: what holds of
  every item.
-/

namespace TaskGrid

/-! ## What is told -/

/-- The event that a notice says a monitor was told. -/
def Notice.delivery? : Notice → Option (Monitor × Event)
  | .delivered m e => some (m, e)
  | _ => none

/-- The record that a notice says a hook was told. -/
def Notice.hooking? : Notice → Option (RemovalHook × RemovedWorker)
  | .hooked h r => some (h, r)
  | _ => none

/-- Whether a notice is of something that neither a monitor nor a hook was told. -/
def Notice.isAside (n : Notice) : Bool := n.delivery?.isNone && n.hooking?.isNone

namespace World

/-- The events that monitors were told, oldest first. -/
def deliveries (w : World) : List (Monitor × Event) := w.log.reverse.filterMap Notice.delivery?

/-- The records that hooks were told, oldest first. -/
def hookings (w : World) : List (RemovalHook × RemovedWorker) :=
  w.log.reverse.filterMap Notice.hooking?

@[simp] theorem deliveries_note (w : World) (n : Notice) :
    (w.note n).deliveries = w.deliveries ++ n.delivery?.toList := by
  unfold deliveries
  cases h : n.delivery? <;> simp [h]

@[simp] theorem hookings_note (w : World) (n : Notice) :
    (w.note n).hookings = w.hookings ++ n.hooking?.toList := by
  unfold hookings
  cases h : n.hooking? <;> simp [h]

end World

namespace Item

/-- The event that an item tells a monitor. -/
def delivery? : Item → Option (Monitor × Event)
  | .deliver m e => some (m, e)
  | .note n => n.delivery?
  | _ => none

/-- The record that an item tells a hook. -/
def hooking? : Item → Option (RemovalHook × RemovedWorker)
  | .tellHook h r => some (h, r)
  | .note n => n.hooking?
  | _ => none

/-- Whether an item tells neither a monitor nor a hook anything, is no command, and concludes no
departure. -/
def isTacit : Item → Bool
  | .obey .. => false
  | .deliver .. => false
  | .tellHook .. => false
  | .retire .. => false
  | .failBound .. => false
  | .note n => n.isAside
  | _ => true

attribute [simp] isTacit reply

/-- All items of a list are tacit. -/
def Tacit (l : List Item) : Prop := ∀ j ∈ l, j.isTacit = true

@[simp] theorem tacit_nil : Tacit [] := fun _ h => by cases h

@[simp] theorem tacit_cons {i : Item} {l : List Item} :
    Tacit (i :: l) ↔ i.isTacit = true ∧ Tacit l := List.forall_mem_cons

@[simp] theorem tacit_append {l r : List Item} : Tacit (l ++ r) ↔ Tacit l ∧ Tacit r :=
  List.forall_mem_append

theorem tacit_map {α : Type} {f : α → Item} (l : List α) (h : ∀ a, (f a).isTacit = true) :
    Tacit (l.map f) := by
  intro j hj
  obtain ⟨a, -, rfl⟩ := List.mem_map.mp hj
  exact h a

@[simp] theorem isAside_replied (token : Nat) (r : Reply) :
    (Notice.replied token r).isAside = true := rfl

/-- The name that an item wakes. -/
def wakes? : Item → Option String
  | .wake n => some n
  | _ => none

/-- The names that the items of a list wake. -/
def wakes (l : List Item) : List String := l.filterMap wakes?

@[simp] theorem wakes_append (l r : List Item) : wakes (l ++ r) = wakes l ++ wakes r :=
  List.filterMap_append

theorem mem_wakes {l : List Item} {n : String} : n ∈ wakes l ↔ .wake n ∈ l := by
  unfold wakes
  rw [List.mem_filterMap]
  constructor
  · rintro ⟨i, hi, hn⟩
    cases i <;> cases hn
    exact hi
  · exact fun h => ⟨_, h, rfl⟩

end Item

open Item (Tacit wakes)

namespace World

theorem mem_wakes_announcements (w : World) {names : List String} {n : String} (h : n ∈ names) :
    n ∈ wakes (w.announcements names) :=
  Item.mem_wakes.mpr (List.mem_append_left _ (List.mem_map.mpr ⟨n, h, rfl⟩))

@[simp] theorem tacit_announcements (w : World) (names : List String) :
    Tacit (w.announcements names) := by
  unfold announcements
  refine Item.tacit_append.mpr ⟨Item.tacit_map _ fun _ => rfl, ?_⟩
  intro j hj
  obtain ⟨label, -, hj⟩ := List.mem_flatMap.mp hj
  obtain ⟨name, -, rfl⟩ := List.mem_map.mp hj
  rfl

@[simp] theorem tacit_answer (token : Option Nat) (r : Reply) : Tacit (answer token r) :=
  Item.tacit_map _ fun _ => rfl

@[simp] theorem tacit_refuse (f : Fault) (next : Resume) : Tacit (refuse f next) := by
  cases next <;> simp [refuse]

@[simp] theorem tacit_resume (r : Reply) (next : Resume) : Tacit (resume r next) := by
  cases next <;> simp [resume]

end World

/-! ## Deeds -/

/-- How an action is said to end. -/
inductive Ending where
  /-- It finished with these values. -/
  | completed (outputs : List ProducedValue)
  /-- It failed. -/
  | failed (reason : FailureReason)
  /-- It is cancelled. -/
  | cancelled

namespace Ending

/-- The values that are registered before the end is told. -/
def values : Ending → List ProducedValue
  | completed outputs => outputs
  | _ => []

/-- What the monitor of the action is told. -/
def events (id : Nat) : Ending → List Event
  | completed outputs => outputs.map (.valueProduced id) ++ [.completed id]
  | failed reason => [.failed id reason]
  | cancelled => [.cancelled id]

/-- The last state of the action. -/
def state : Ending → ActionState
  | completed _ => .completed
  | failed reason => .failed reason
  | cancelled => .cancelled

/-- Whether an action can end so from a state: only what holds capacity can finish. -/
def suits (s : ActionState) : Ending → Bool
  | completed _ => s.holdsCapacity
  | _ => true

end Ending

/-- What an item does. -/
inductive Deed where
  /-- It tells neither monitors nor hooks, and changes neither actions nor workers. -/
  | idle
  /-- It writes a notice. -/
  | note (n : Notice)
  /-- It has a monitor told an event that is none of the scheduler's. -/
  | send (m : Monitor) (e : Event)
  /-- It tells a monitor an event. -/
  | deliver (m : Monitor) (e : Event)
  /-- It tells a hook that a worker left. -/
  | tellHook (hook : RemovalHook) (r : RemovedWorker)
  /-- It runs a pass. -/
  | pass
  /-- It wakes the actions that wait for a name. -/
  | wake (name : String)
  /-- It accepts a task. -/
  | submit (task : Submission) (monitor : Monitor)
  /-- It ends an action, if the action can end so. -/
  | conclude (id : Nat) (ending : Ending)
  /-- It says that a bound action is being executed. -/
  | run (id : Nat)
  /-- It lets the actions of a lost worker fail. -/
  | fail (key : WorkerKey) (ids : List Nat)
  /-- It offers capacity. -/
  | offer (key : WorkerKey) (offered : Capacity)
  /-- It withdraws capacity. -/
  | reduce (key : WorkerKey) (c : Capacity)
  /-- It asks a worker to leave. -/
  | remove (key : WorkerKey) (hook : Option RemovalHook)
  /-- It gives a worker up as lost. -/
  | lose (key : WorkerKey)
  /-- It lets a drained worker leave. -/
  | retire (key : WorkerKey) (seq : Nat)
  /-- It changes the pool behind the scheduler. -/
  | pool (o : Pool.Operation)

namespace Deed

/-- Whether a deed can change the table of actions. -/
def moves : Deed → Bool
  | pass | wake _ | submit .. | conclude .. | run _ | fail .. => true
  | _ => false

/-- The monitor of the action that is accepted. -/
def accepted? : Deed → Option Monitor
  | submit _ m => some m
  | _ => none

/-- The event that a monitor is told. -/
def delivery? : Deed → Option (Monitor × Event)
  | note n => n.delivery?
  | deliver m e => some (m, e)
  | _ => none

/-- The record that a hook is told. -/
def hooking? : Deed → Option (RemovalHook × RemovedWorker)
  | note n => n.hooking?
  | tellHook h r => some (h, r)
  | _ => none

end Deed

namespace Moment

/-- The deed about a node, if its key is known. -/
def withKey (x : Moment) (name : String) (app : Option ApplicationId) (f : WorkerKey → Deed) :
    Deed :=
  ((x.world.agent.bind fun s => (s.keyFor name app).toOption).map f).getD .idle

/-- The offer of a moment, if there is one. -/
def offered (x : Moment) : Deed := (x.offer?.map fun o => .offer o.1 o.2).getD .idle

/-- What the item of a moment does. -/
def deed (x : Moment) : Deed :=
  match x.item with
  | .obey _ (.addWorker key offered _) => .offer key offered
  | .obey _ (.reduceWorker key c) => .reduce key c
  | .obey _ (.removeWorker key hook) => .remove key hook
  | .obey _ (.loseWorker key) => .lose key
  | .obey _ (.submit task monitor) => .submit task monitor
  | .obey _ .pass => .pass
  | .obey _ (.markRunning id) => .run id
  | .obey _ (.complete id outputs) => .conclude id (.completed outputs)
  | .obey _ (.fail id reason) => .conclude id (.failed reason)
  | .obey _ (.cancel id) => .conclude id .cancelled
  | .obey _ (.pool o) => .pool o
  | .obey _ (.offerNode _ _) => x.offered
  | .obey _ (.reduceNode r) => x.withKey r.name r.app fun key => .reduce key r.reduction
  | .obey _ (.removeNode r) => x.withKey r.name r.app fun key => .remove key (some .agent)
  | .obey _ (.loseNode r) => x.withKey r.name r.app .lose
  | .obey _ (.tellSession app e) =>
    ((x.world.agent.bind fun s => (s.monitorOf app).toOption).map fun m => .send m e).getD .idle
  | .note n => .note n
  | .deliver m e => .deliver m e
  | .tellHook hook r => .tellHook hook r
  | .retire key seq => .retire key seq
  | .failBound key ids => .fail key ids
  | .pass _ => .pass
  | .wake name => .wake name
  | .releaseNode key => .remove key (some .agent)
  | .takeOver _ => x.offered
  | .prepare p =>
    if p.offers.isEmpty && p.imports.isEmpty then .submit p.submission (.session p.app p.monitor)
    else x.offered
  | _ => .idle

theorem told_offered (x : Moment) : x.offered.delivery? = none ∧ x.offered.hooking? = none := by
  unfold offered
  cases x.offer? <;> exact ⟨rfl, rfl⟩

theorem told_withKey (x : Moment) (name : String) (app : Option ApplicationId)
    {f : WorkerKey → Deed} (h : ∀ key, (f key).delivery? = none ∧ (f key).hooking? = none) :
    (x.withKey name app f).delivery? = none ∧ (x.withKey name app f).hooking? = none := by
  unfold withKey
  cases x.world.agent.bind fun s => (s.keyFor name app).toOption with
  | none => exact ⟨rfl, rfl⟩
  | some key => exact h key

/-- What an item tells can be read off it. -/
theorem told_deed (w : World) (i : Item) :
    (deed ⟨w, i⟩).delivery? = i.delivery? ∧ (deed ⟨w, i⟩).hooking? = i.hooking? := by
  cases i
  case obey token c =>
    cases c
    case offerNode o app => exact told_offered _
    case reduceNode r => exact told_withKey _ _ _ fun _ => ⟨rfl, rfl⟩
    case removeNode r => exact told_withKey _ _ _ fun _ => ⟨rfl, rfl⟩
    case loseNode r => exact told_withKey _ _ _ fun _ => ⟨rfl, rfl⟩
    case tellSession app e =>
      unfold deed
      dsimp only
      cases w.agent.bind fun s => (s.monitorOf app).toOption <;> exact ⟨rfl, rfl⟩
    all_goals exact ⟨rfl, rfl⟩
  case takeOver im => exact told_offered _
  case prepare p =>
    unfold deed
    dsimp only
    split
    · exact ⟨rfl, rfl⟩
    · exact told_offered _
  all_goals exact ⟨rfl, rfl⟩

/-- What a deed says of the moment at which it is done. -/
def DoneBy (x : Moment) : Deed → Prop
  | .note n => x.item = .note n
  | .deliver m e => x.item = .deliver m e
  | .send _ e => ∃ token app, x.item = .obey token (.tellSession app e)
  | .tellHook hook r => x.item = .tellHook hook r
  | .pass => (∃ token, x.item = .obey token .pass) ∨ ∃ token, x.item = .pass token
  | .wake name => x.item = .wake name
  | .conclude id (.completed outputs) => ∃ token, x.item = .obey token (.complete id outputs)
  | .conclude id (.failed reason) => ∃ token, x.item = .obey token (.fail id reason)
  | .conclude id .cancelled => ∃ token, x.item = .obey token (.cancel id)
  | .fail key ids => x.item = .failBound key ids
  | .offer key offered => x.offer? = some (key, offered)
  | .retire key seq => x.item = .retire key seq
  | .pool o => ∃ token, x.item = .obey token (.pool o)
  | _ => True

theorem doneBy_offered (x : Moment) : x.DoneBy x.offered := by
  unfold offered
  cases h : x.offer? with
  | none => trivial
  | some o => exact h

theorem doneBy_withKey (x : Moment) (name : String) (app : Option ApplicationId)
    {f : WorkerKey → Deed} (h : ∀ key, x.DoneBy (f key)) : x.DoneBy (x.withKey name app f) := by
  unfold withKey
  cases x.world.agent.bind fun s => (s.keyFor name app).toOption with
  | none => trivial
  | some key => exact h key

/-- A deed is done by the item that it says. -/
theorem doneBy_deed (x : Moment) : x.DoneBy x.deed := by
  obtain ⟨w, i⟩ := x
  cases i
  case obey token c =>
    cases c
    case addWorker key offered adaptor => exact rfl
    case offerNode o app => exact doneBy_offered _
    case reduceNode r => exact doneBy_withKey _ _ _ fun _ => trivial
    case removeNode r => exact doneBy_withKey _ _ _ fun _ => trivial
    case loseNode r => exact doneBy_withKey _ _ _ fun _ => trivial
    case tellSession app e =>
      unfold deed
      dsimp only
      cases w.agent.bind fun s => (s.monitorOf app).toOption with
      | none => trivial
      | some m => exact ⟨token, app, rfl⟩
    case pass => exact .inl ⟨token, rfl⟩
    case complete | fail | cancel | pool => exact ⟨token, rfl⟩
    all_goals trivial
  case takeOver im => exact doneBy_offered _
  case prepare p =>
    unfold deed
    dsimp only
    split
    · trivial
    · exact doneBy_offered _
  case pass token => exact .inr ⟨token, rfl⟩
  case note | deliver | tellHook | wake | failBound | retire => exact rfl
  all_goals trivial

end Moment

namespace World

/-- The pass that an item runs in a world. -/
def passed (w : World) : Pass :=
  (Pass.start w.schedule w.pool w.catalog w.disturbances w.scored).run w.policy

/-- Two worlds with the same actions and workers, in which the same was told. -/
structure Still (w w' : World) : Prop where
  /-- The same actions. -/
  schedule : w'.schedule = w.schedule
  /-- The same workers. -/
  pool : w'.pool = w.pool
  /-- The same coming disturbances. -/
  disturbances : w'.disturbances = w.disturbances
  /-- Monitors were told the same. -/
  deliveries : w'.deliveries = w.deliveries
  /-- Hooks were told the same. -/
  hookings : w'.hookings = w.hookings

/-- What a deed makes of the world, with the items that follow. -/
inductive Does (w : World) : Deed → Effect → Prop where
  /-- Nothing is told and nothing changes but data, whose names are announced. -/
  | idle {e : Effect} (still : w.Still e.1) (tacit : Tacit e.2)
      (announces : w.catalog.Announces e.1.catalog (wakes e.2)) : Does w .idle e
  /-- A notice is written. -/
  | note (n : Notice) : Does w (.note n) (w.note n, [])
  /-- A monitor is to be told an event. -/
  | send (m : Monitor) (e : Event) {tail : List Item} (tacit : Tacit tail) :
    Does w (.send m e) (w, .deliver m e :: tail)
  /-- A monitor is told an event. -/
  | deliver (m : Monitor) (e : Event) : Does w (.deliver m e) (w.deliver m e)
  /-- A hook is told a record. -/
  | tellHook (hook : RemovalHook) (r : RemovedWorker) :
    Does w (.tellHook hook r) (w.tellHook hook r)
  /-- A pass runs. -/
  | pass (token : Option Nat) : Does w .pass (w.runPass token)
  /-- Actions wake. -/
  | wake (name : String) : Does w (.wake name) (w.wake name)
  /-- A task is accepted. -/
  | submit (task : Submission) (monitor : Monitor) {tail : List Item} (tacit : Tacit tail) :
    Does w (.submit task monitor)
      ((w.submit task monitor).2.1, (w.submit task monitor).2.2 ++ tail)
  /-- A live action ends. -/
  | conclude {id : Nat} {x : Entry} (ending : Ending) {tail : List Item}
      (live : w.schedule.actions.get? id = some x) (suits : ending.suits x.state = true)
      (tacit : Tacit tail) :
    Does w (.conclude id ending)
      ((w.conclude x ending.values (ending.events id) ending.state).1,
        (w.conclude x ending.values (ending.events id) ending.state).2 ++ tail)
  /-- No live action can end so. -/
  | conclude_refused {id : Nat} {ending : Ending} {items : List Item}
      (refused : ∀ x, w.schedule.actions.get? id = some x → ending.suits x.state = false)
      (tacit : Tacit items) : Does w (.conclude id ending) (w, items)
  /-- A bound action is being executed. -/
  | run {id : Nat} {s : Schedule} {items : List Item}
      (marked : w.schedule.markRunning? id = some s) (tacit : Tacit items) :
    Does w (.run id) ({ w with schedule := s }, items)
  /-- The action is not bound. -/
  | run_refused {id : Nat} {items : List Item} (refused : w.schedule.markRunning? id = none)
      (tacit : Tacit items) : Does w (.run id) (w, items)
  /-- The actions of a lost worker fail. -/
  | fail (key : WorkerKey) (ids : List Nat) : Does w (.fail key ids) (w.failBound key ids)
  /-- Capacity is offered. -/
  | offer (key : WorkerKey) (offered : Capacity) (adaptor : Adaptor) {tail : List Item}
      (tacit : Tacit tail) :
    Does w (.offer key offered)
      ((w.addWorker key offered adaptor).2.1, (w.addWorker key offered adaptor).2.2 ++ tail)
  /-- Capacity is withdrawn, or this is refused. -/
  | reduce (key : WorkerKey) (c : Capacity) {items : List Item} (tacit : Tacit items) :
    Does w (.reduce key c) ({ w with pool := (w.pool.reduce key c).2 }, items)
  /-- A worker is asked to leave, if there is one. -/
  | remove (key : WorkerKey) (hook : Option RemovalHook) {tail : List Item} (tacit : Tacit tail) :
    Does w (.remove key hook)
      ((w.removeWorker key hook).2.1, (w.removeWorker key hook).2.2 ++ tail)
  /-- A worker is lost. -/
  | lose {key : WorkerKey} {d : Pool.Departure} {tail : List Item}
      (lost : w.pool.lose? w.catalog key = some d) (tacit : Tacit tail) :
    Does w (.lose key) ((w.depart d).1, (w.depart d).2 ++ .failBound key d.bound :: tail)
  /-- There is no worker to lose. -/
  | lose_refused {key : WorkerKey} {items : List Item}
      (refused : w.pool.lose? w.catalog key = none) (tacit : Tacit items) :
    Does w (.lose key) (w, items)
  /-- A drained worker leaves, if it is still there. -/
  | retire (key : WorkerKey) (seq : Nat) : Does w (.retire key seq) (w.retire key seq)
  /-- The pool changes behind the scheduler. -/
  | pool (token : Nat) (o : Pool.Operation) : Does w (.pool o) (w.changePool token o)

variable {w : World} {i : Item}

/-! ## Observers and data -/

theorem Still.refl (w : World) : w.Still w := ⟨rfl, rfl, rfl, rfl, rfl⟩

theorem Still.trans {w w' w'' : World} (h : w.Still w') (h' : w'.Still w'') : w.Still w'' :=
  ⟨h'.schedule.trans h.schedule, h'.pool.trans h.pool, h'.disturbances.trans h.disturbances,
    h'.deliveries.trans h.deliveries, h'.hookings.trans h.hookings⟩

theorem still_note {n : Notice} (h : n.isAside = true) : w.Still (w.note n) := by
  rw [Notice.isAside, Bool.and_eq_true, Option.isNone_iff_eq_none, Option.isNone_iff_eq_none] at h
  exact ⟨rfl, rfl, rfl, by simp [h.1], by simp [h.2]⟩

theorem still_noteAll {l : List Notice} (h : ∀ n ∈ l, n.isAside = true) :
    w.Still (w.noteAll l) := by
  induction l generalizing w with
  | nil => exact .refl w
  | cons n l ih =>
    exact (still_note (h n List.mem_cons_self)).trans
      (ih fun n hn => h n (List.mem_cons_of_mem _ hn))

theorem still_noteAll_map {α : Type} {f : α → Notice} (l : List α) (h : ∀ a, (f a).isAside = true) :
    w.Still (w.noteAll (l.map f)) := still_noteAll fun n hn => by
  obtain ⟨a, -, rfl⟩ := List.mem_map.mp hn
  exact h a

/-- An effect that leaves the data alone, too. -/
theorem Does.idle_of_same {e : Effect} (still : w.Still e.1) (same : e.1.catalog = w.catalog)
    (tacit : Tacit e.2) : w.Does .idle e :=
  .idle still tacit (same.symm ▸ .refl w.catalog)

/-- An effect on the data alone. -/
theorem Does.idle_of_catalog {c : Catalog} {items : List Item} (tacit : Tacit items)
    (announces : w.catalog.Announces c (wakes items)) :
    w.Does .idle ({ w with catalog := c }, items) :=
  .idle ⟨rfl, rfl, rfl, rfl, rfl⟩ tacit announces

theorem still_report (w : World) (a : List Assignment) (c : List (WorkerKey × Capacity)) :
    w.Still (w.report a c) := by
  unfold report
  split
  · exact .refl w
  · dsimp only
    split
    · exact still_noteAll_map _ fun _ => rfl
    · exact (still_noteAll_map _ fun _ => rfl).trans (still_noteAll_map _ fun _ => rfl)

theorem still_tellRemoved (w : World) (r : RemovedWorker) (last : Bool) :
    w.Still (w.tellRemoved r last) := by
  unfold tellRemoved
  dsimp only
  have hheard : w.Still
      (if (w.listener.any fun l => !l.quiet) = true then w.note (.removed r) else w) := by
    split
    · exact still_note rfl
    · exact .refl w
  split
  · exact hheard.trans (still_noteAll_map _ fun _ => rfl)
  · exact hheard

theorem does_handOver (orders : List RescueOrder) : w.Does .idle (w.handOver orders) := by
  refine .idle_of_same ?_ (catalog_handOver w orders) ?_
  · unfold handOver
    split
    · exact .refl w
    · exact still_note rfl
    · split
      · exact .refl w
      · dsimp only
        split
        · exact ⟨rfl, rfl, rfl, (still_note (w := w) rfl).deliveries,
            (still_note (w := w) rfl).hookings⟩
        · exact still_note rfl
  · unfold handOver
    split
    · exact Item.tacit_nil
    · exact Item.tacit_nil
    · split
      · exact Item.tacit_nil
      · dsimp only
        split <;> simp

theorem still_publish (w : World) (channel : Option Nat) (r : RescueReport) :
    w.Still (w.publish channel r) := by
  unfold publish
  split
  · exact .refl w
  · split <;> exact ⟨rfl, rfl, rfl, rfl, rfl⟩

theorem does_rescue (b : RescueBatch) : w.Does .idle (w.rescue b) := by
  refine .idle_of_same ?_ (catalog_rescue w b) ?_
  · unfold rescue
    split
    · unfold endBatch
      split
      · exact .refl w
      · have hnote : w.Still (if b.report.isClean then w
            else w.note (.alarm (.batchLoss b.report.saved.length b.report.failures.length))) := by
          split
          · exact .refl w
          · exact still_note rfl
        exact hnote.trans (still_publish _ _ _)
    · dsimp only
      split
      · exact still_note rfl
      · exact (still_note rfl).trans (still_note rfl)
  · unfold rescue
    split
    · unfold endBatch
      split <;> simp
    · dsimp only
      split <;> simp

theorem does_runDeferred : w.Does .idle w.runDeferred := by
  unfold runDeferred
  split
  · exact .idle_of_same (.refl w) rfl Item.tacit_nil
  · exact .idle_of_same ⟨rfl, rfl, rfl, rfl, rfl⟩ rfl (by simp)

theorem does_endCopy {e : Catalog.CopyEnded} (outcome : CopyOutcome) {tail : List Item}
    (tacit : Tacit tail) (announces : w.catalog.Announces e.catalog e.announced) :
    w.Does .idle ((w.endCopy e outcome).1, (w.endCopy e outcome).2 ++ tail) := by
  have hmoved : w.Still { w with catalog := e.catalog } := ⟨rfl, rfl, rfl, rfl, rfl⟩
  refine .idle (hmoved.trans (still_noteAll_map _ fun _ => rfl)) (by simp [endCopy, tacit]) ?_
  rw [show (w.endCopy e outcome).1.catalog = e.catalog from catalog_noteAll _ _]
  exact announces.mono fun n hn => by
    rw [Item.wakes_append]
    exact List.mem_append_left _ (mem_wakes_announcements w hn)

theorem does_addReplica (name : String) (r : Replica) (token : Option Nat) :
    w.Does .idle (w.addReplica name r token) := by
  refine .idle_of_catalog (by simp) ?_
  exact (Catalog.announces_addReplica w.catalog name r).mono fun n hn => by
    rw [Item.wakes_append]
    exact List.mem_append_left _ (mem_wakes_announcements w hn)

/-! ## Actions -/

theorem does_complete (token id : Nat) (values : List ProducedValue) :
    w.Does (.conclude id (.completed values)) (w.complete token id values) := by
  unfold complete
  split
  · next hnone => exact .conclude_refused (fun x hx => by rw [hnone] at hx; cases hx) (by simp)
  · next x hx =>
    split
    · next hc => exact .conclude (.completed values) hx hc (by simp)
    · next hc =>
      refine .conclude_refused (fun y hy => ?_) (by simp)
      rw [hx] at hy
      rw [← Option.some_inj.mp hy]
      exact Bool.not_eq_true _ ▸ hc

theorem does_fail (token id : Nat) (reason : FailureReason) :
    w.Does (.conclude id (.failed reason)) (w.fail token id reason) := by
  unfold fail
  split
  · next hnone => exact .conclude_refused (fun x hx => by rw [hnone] at hx; cases hx) (by simp)
  · next x hx => exact .conclude (.failed reason) hx rfl (by simp)

theorem does_cancel (token id : Nat) : w.Does (.conclude id .cancelled) (w.cancel token id) := by
  unfold cancel
  split
  · next hnone => exact .conclude_refused (fun x hx => by rw [hnone] at hx; cases hx) (by simp)
  · next x hx => exact .conclude .cancelled hx rfl (by simp)

theorem does_markRunning (token id : Nat) : w.Does (.run id) (w.markRunning token id) := by
  unfold markRunning
  split
  · next h => exact .run_refused h (by simp)
  · next s hs => exact .run hs (by simp)

/-! ## Workers -/

theorem does_reduceWorker (token : Nat) (key : WorkerKey) (c : Capacity) :
    w.Does (.reduce key c) (w.reduceWorker token key c) := by
  have ht {items : List Item} (tacit : Tacit items) :
      w.Does (.reduce key c) ({ w with pool := (w.pool.reduce key c).2 }, items) :=
    .reduce key c tacit
  unfold reduceWorker
  generalize w.pool.reduce key c = r at ht ⊢
  obtain ⟨answer, q⟩ := r
  cases answer with
  | error f => exact ht (by simp)
  | ok v => exact ht (by simp)

theorem does_answerRemoval (token : Nat) (key : WorkerKey) (hook : Option RemovalHook) :
    w.Does (.remove key hook) (w.answerRemoval token key hook) := by
  have ht (r : Reply) := Does.remove (w := w) key hook (show Tacit [.reply token r] by simp)
  unfold answerRemoval
  generalize w.removeWorker key hook = r at ht ⊢
  obtain ⟨status, w', items⟩ := r
  cases status with
  | none => exact ht _
  | some s => exact ht _

theorem does_releaseNode (key : WorkerKey) :
    w.Does (.remove key (some .agent)) (w.releaseNode key) := by
  have ht := Does.remove (w := w) key (some .agent) Item.tacit_nil
  rw [List.append_nil] at ht
  exact ht

theorem does_loseWorker (token : Nat) (key : WorkerKey) (byAgent : Bool) :
    w.Does (.lose key) (w.loseWorker token key byAgent) := by
  unfold loseWorker
  cases hl : w.pool.lose? w.catalog key with
  | none => exact .lose_refused hl (by simp)
  | some d =>
    have htail : Tacit (.tellRemoved d.removed false ::
        (if byAgent && !d.removed.rescues.isEmpty then [.handOver d.removed.rescues] else []) ++
        [.reply token (.pool (.lost ⟨d.bound, d.removed⟩))]) := by split <;> simp
    simpa using Does.lose hl htail

/-! ## Applications -/

theorem does_offer {o : Offer} {app : Option ApplicationId} {next : Resume} {deed : Deed}
    (known : ∀ key, w.sessions.keyFor o.name app = .ok key → deed = .offer key o.description)
    (unknown : ∀ f, w.sessions.keyFor o.name app = .error f → deed = .idle) :
    w.Does deed (w.offer o app next) := by
  unfold offer
  split
  · next f hf =>
    rw [unknown f hf]
    exact .idle_of_same (.refl w) rfl (by simp)
  · next key hk =>
    rw [known key hk]
    cases app with
    | none => exact .offer key o.description o.adaptor (by simp)
    | some app => exact .offer key o.description o.adaptor (by simp)

theorem does_joinNode (app : ApplicationId) (v : WorkerView) (next : Resume) :
    w.Does .idle (w.joinNode app v next) := by
  unfold joinNode
  split <;> exact .idle_of_same ⟨rfl, rfl, rfl, rfl, rfl⟩ rfl (by simp)

theorem does_closeSession (app : ApplicationId) : w.Does .idle (w.closeSession app) := by
  unfold closeSession
  split <;> exact .idle_of_same ⟨rfl, rfl, rfl, rfl, rfl⟩ rfl (by simp)

theorem does_endSession (app : ApplicationId) : w.Does .idle (w.endSession app) := by
  unfold endSession
  split
  · exact .idle_of_same (.refl w) rfl Item.tacit_nil
  · exact .idle_of_same ⟨rfl, rfl, rfl, rfl, rfl⟩ rfl (Item.tacit_map _ fun _ => rfl)

theorem does_takenOver (name : String) (sources : Nat) (next : Resume) :
    w.Does .idle (w.takenOver name sources next) := by
  refine .idle_of_same (.refl w) rfl ?_
  unfold takenOver
  dsimp only
  split <;> simp

theorem does_takeOver (im : Import) : w.Does (Moment.deed ⟨w, .takeOver im⟩) (w.takeOver im) := by
  obtain ⟨name, sources, found, otherName, replicas, next⟩ := im
  have hidle {items : List Item} (tacit : Tacit items) : w.Does .idle (w, items) :=
    .idle_of_same (.refl w) rfl tacit
  have hadd : Tacit (replicas.map fun r => Item.addReplica name r none) :=
    Item.tacit_map _ fun _ => rfl
  cases sources with
  | nil =>
    show w.Does .idle _
    unfold takeOver
    dsimp only
    split
    · exact hidle (by simp [hadd])
    · next l hl =>
      split at hl
      · cases hl
      · obtain ⟨other, -, hl⟩ := Option.bind_eq_some_iff.mp hl
        refine .idle_of_catalog (by simp [hadd]) ?_
        exact (Catalog.announces_link hl).mono fun n hn => by
          rw [Item.wakes_append, Item.wakes_append, List.append_assoc]
          exact List.mem_append_left _ (mem_wakes_announcements w hn)
  | cons source rest =>
    cases source with
    | localAlias other =>
      show w.Does .idle _
      unfold takeOver
      dsimp only
      split <;> exact hidle (by simp)
    | location r host =>
      cases host with
      | none => exact hidle (by simp)
      | some o =>
        unfold takeOver
        show w.Does (((if (w.pool.worker? (.permanent o.name)).isSome = true then none
          else some (WorkerKey.permanent o.name, o.description)).map
            fun o => Deed.offer o.1 o.2).getD .idle) _
        dsimp only
        split
        · exact hidle (by simp)
        · exact .offer (.permanent o.name) o.description o.adaptor (by simp)

theorem does_prepare (p : Preparation) : w.Does (Moment.deed ⟨w, .prepare p⟩) (w.prepare p) := by
  obtain ⟨token, app, offers, imports, submission, monitor⟩ := p
  cases offers with
  | nil =>
    cases imports with
    | nil => exact .submit submission (.session app monitor) (by simp)
    | cons r rest =>
      show w.Does .idle _
      exact .idle_of_same (.refl w) rfl (by simp [prepare, beginTakeOver])
  | cons o rest =>
    show w.Does (((if o.description.get .primary = 0 then none
      else (w.sessions.keyFor o.name (some app)).toOption.map fun key =>
        (key, o.description)).map fun o => Deed.offer o.1 o.2).getD .idle) _
    unfold prepare
    dsimp only
    split
    · exact .idle_of_same (.refl w) rfl (by simp)
    · refine does_offer (fun key hk => ?_) fun f hf => ?_
      · simp only [hk, Except.toOption, Option.map_some, Option.getD_some]
      · simp only [hf, Except.toOption, Option.map_none, Option.getD_none]

/-! ## Commands -/

theorem does_obeyData {token : Nat} {c : Command} {e : Effect}
    (h : w.obeyData token c = some e) : w.Does .idle e := by
  have hcatalog {c : Catalog} {r : Reply} (ha : w.catalog.Announces c []) :
      w.Does .idle (changed { w with catalog := c } token r) :=
    .idle_of_catalog (by simp) ha.of_nil
  cases c <;> simp only [obeyData, Option.some.injEq, reduceCtorEq] at h
  case register name =>
    subst h
    exact hcatalog (Catalog.announces_register _ name)
  case link name existing =>
    subst h
    unfold link
    split
    · exact .idle_of_same (.refl w) rfl (by simp)
    · next l hl =>
      refine .idle_of_catalog (by simp) ?_
      exact (Catalog.announces_link hl).mono fun n hn => by
        rw [Item.wakes_append]
        exact List.mem_append_left _ (mem_wakes_announcements w hn)
  case addReplica name r =>
    subst h
    exact does_addReplica name r (some token)
  case startCopy name target listener =>
    subst h
    unfold startCopy
    split
    · exact .idle_of_same (.refl w) rfl (by simp)
    · next r hr => exact hcatalog (Catalog.announces_startCopy hr)
  case listenToCopy id data listener =>
    subst h
    unfold listenToCopy
    split
    · exact .idle_of_same (.refl w) rfl (by simp)
    · next c hc => exact hcatalog (Catalog.announces_listenToCopy hc)
  case finishCopy id data =>
    subst h
    unfold finishCopy
    split
    · exact .idle_of_same (.refl w) rfl (by simp)
    · next e he => exact does_endCopy _ (by simp) (Catalog.announces_finishCopy he)
  case failCopy id data reason =>
    subst h
    unfold failCopy
    split
    · exact .idle_of_same (.refl w) rfl (by simp)
    · next e he => exact does_endCopy _ (by simp) (Catalog.announces_retireCopy he)
  case removeHost name host =>
    subst h
    exact hcatalog (Catalog.announces_removeHost _ name host)
  case markObsolete name =>
    split at h
    · cases h
      exact .idle_of_same (.refl w) rfl (by simp [changed])
    · next c hc =>
      cases h
      exact hcatalog (Catalog.announces_markObsolete hc)
  case setInMemory name b =>
    subst h
    exact hcatalog (Catalog.announces_registerUpdate name (fun _ => rfl) fun _ h => h)
  case setSize name n =>
    subst h
    exact hcatalog (Catalog.announces_registerUpdate name (fun _ => rfl) fun _ h => h)
  case mount | unmountHost | takeObsolete | forgetHost =>
    subst h
    exact hcatalog (Catalog.announces_of_same rfl rfl)
  all_goals
    subst h
    exact .idle_of_same ⟨rfl, rfl, rfl, rfl, rfl⟩ rfl (by simp [changed])

theorem does_withAgent (token : Nat) {deed : Deed} {f : Sessions → Effect}
    (known : ∀ s, w.agent = some s → w.Does deed (f s)) (unknown : w.agent = none → deed = .idle) :
    w.Does deed (w.withAgent token f) := by
  unfold withAgent
  split
  · next h =>
    rw [unknown h]
    exact .idle_of_same (.refl w) rfl (by simp)
  · next s hs => exact known s hs

/-- A command to the agent that does nothing to actions and workers. -/
theorem does_withAgent_idle (token : Nat) {f : Sessions → Effect}
    (h : ∀ s, w.Does .idle (f s)) : w.Does .idle (w.withAgent token f) :=
  does_withAgent token (fun s _ => h s) fun _ => rfl

theorem does_withNode (token : Nat) {name : String} {app : Option ApplicationId}
    {g : WorkerKey → Deed} {f : WorkerKey → Effect} (h : ∀ key, w.Does (g key) (f key)) :
    w.Does (Moment.withKey ⟨w, i⟩ name app g) (w.withNode token name app f) := by
  refine does_withAgent token (fun s hs => ?_) fun hnone => ?_
  · unfold Moment.withKey
    simp only [hs, Option.bind_some]
    cases s.keyFor name app with
    | error fault => exact .idle_of_same (.refl w) rfl (by simp)
    | ok key => exact h key
  · unfold Moment.withKey
    simp only [hnone, Option.bind_none, Option.map_none, Option.getD_none]

theorem does_obeyAgent {token : Nat} {c : Command} {e : Effect}
    (h : w.obeyAgent token c = some e) : w.Does (Moment.deed ⟨w, .obey token c⟩) e := by
  have hidle {w' : World} {items : List Item} (still : w.Still w') (same : w'.catalog = w.catalog)
      (tacit : Tacit items) : w.Does .idle (w', items) := .idle_of_same still same tacit
  cases c <;> simp only [obeyAgent, Option.some.injEq, reduceCtorEq] at h <;> subst h
  case offerNode o app =>
    show w.Does (Moment.offered ⟨w, .obey token (.offerNode o app)⟩) _
    unfold Moment.offered Moment.offer?
    refine does_withAgent token (fun s hs => does_offer (fun key hk => ?_) fun f hf => ?_)
      fun hnone => ?_
    · rw [sessions, hs, Option.getD_some] at hk
      simp only [hs, Option.bind_some, hk, Except.toOption, Option.map_some, Option.getD_some]
    · rw [sessions, hs, Option.getD_some] at hf
      simp only [hs, Option.bind_some, hf, Except.toOption, Option.map_none, Option.getD_none]
    · simp only [hnone, Option.bind_none, Option.map_none, Option.getD_none]
  case reduceNode r => exact does_withNode token fun key => does_reduceWorker token key _
  case removeNode r => exact does_withNode token fun key => does_answerRemoval token key _
  case loseNode r => exact does_withNode token fun key => does_loseWorker token key true
  case finishApplication app =>
    refine does_withAgent_idle token fun s => ?_
    split <;> exact hidle (.refl w) rfl (by simp)
  case dispatchRescues transfer deferred reports =>
    refine does_withAgent_idle token fun s => ?_
    unfold setDispatcher changed
    split <;> exact hidle ⟨rfl, rfl, rfl, rfl, rfl⟩ rfl (by simp)
  case addSessionNode app key =>
    refine does_withAgent_idle token fun s => ?_
    split <;> exact hidle ⟨rfl, rfl, rfl, rfl, rfl⟩ rfl (by simp)
  case finishSession app =>
    refine does_withAgent_idle token fun s => ?_
    split <;> exact hidle ⟨rfl, rfl, rfl, rfl, rfl⟩ rfl (by simp)
  case tellSession app ev =>
    show w.Does (((w.agent.bind fun s => (s.monitorOf app).toOption).map
      fun m => Deed.send m ev).getD .idle) _
    refine does_withAgent token (fun s hs => ?_) fun hnone => ?_
    · simp only [hs, Option.bind_some]
      cases s.monitorOf app with
      | error f => exact hidle (.refl w) rfl (by simp)
      | ok m => exact .send m ev (by simp)
    · simp only [hnone, Option.bind_none, Option.map_none, Option.getD_none]
  all_goals
    refine does_withAgent_idle token fun s => hidle ⟨rfl, rfl, rfl, rfl, rfl⟩ rfl ?_
    simp [beginTakeOver]

/-- A command does its deed. -/
theorem does_obey (token : Nat) (c : Command) :
    w.Does (Moment.deed ⟨w, .obey token c⟩) (w.obey token c) := by
  have hdata (hdeed : Moment.deed ⟨w, .obey token c⟩ = .idle ∨
      w.obeyData token c = none ∧ (w.obeyAgent token c).isSome = true) :
      w.Does (Moment.deed ⟨w, .obey token c⟩)
        (((w.obeyData token c).or (w.obeyAgent token c)).getD (w.changed token)) := by
    rcases hdeed with hidle | ⟨hnone, hsome⟩
    · cases he : (w.obeyData token c).or (w.obeyAgent token c) with
      | none =>
        rw [hidle]
        exact .idle_of_same (.refl w) rfl (by simp [changed])
      | some e =>
        rcases Option.or_eq_some_iff.mp he with hd | ⟨-, ha⟩
        · rw [hidle]
          exact does_obeyData hd
        · exact does_obeyAgent ha
    · obtain ⟨e, he⟩ := Option.isSome_iff_exists.mp hsome
      rw [hnone, he]
      exact does_obeyAgent he
  have hidle {w' : World} {items : List Item} (still : w.Still w') (same : w'.catalog = w.catalog)
      (tacit : Tacit items) : w.Does .idle (w', items) := .idle_of_same still same tacit
  cases c
  case addWorker key offered adaptor => exact .offer key offered adaptor (by simp)
  case reduceWorker key c => exact does_reduceWorker token key c
  case removeWorker key hook => exact does_answerRemoval token key hook
  case loseWorker key => exact does_loseWorker token key false
  case submit task monitor => exact .submit task monitor (by simp)
  case pass => exact .pass (some token)
  case markRunning id => exact does_markRunning token id
  case complete id outputs => exact does_complete token id outputs
  case fail id reason => exact does_fail token id reason
  case cancel id => exact does_cancel token id
  case pool o => exact .pool token o
  case dispatch orders =>
    dsimp only [obey]
    split <;> exact hidle (.refl w) rfl (by simp)
  case collectReports =>
    dsimp only [obey]
    split <;> exact hidle ⟨rfl, rfl, rfl, rfl, rfl⟩ rfl (by simp)
  case collectMail id =>
    dsimp only [obey]
    split <;> exact hidle ⟨rfl, rfl, rfl, rfl, rfl⟩ rfl (by simp)
  case setListener | runDeferred | dropReports | dismissAgent | closeMailbox =>
    exact hidle ⟨rfl, rfl, rfl, rfl, rfl⟩ rfl (by simp)
  case offerNode | reduceNode | removeNode | loseNode | tellSession =>
    exact hdata (.inr ⟨rfl, rfl⟩)
  all_goals exact hdata (.inl rfl)

/-- Every item does its deed. -/
theorem does_carryOut (w : World) (i : Item) : w.Does (Moment.deed ⟨w, i⟩) (w.carryOut i) := by
  cases i with
  | obey token c => exact does_obey token c
  | note n => exact .note n
  | prompt p => exact .idle_of_same (.refl w) rfl Item.tacit_nil
  | deliver m e => exact .deliver m e
  | report a c => exact .idle_of_same (still_report w a c) (catalog_report w a c) Item.tacit_nil
  | tellCapacity key free =>
    exact .idle_of_same (still_report w _ _) (catalog_report w _ _) Item.tacit_nil
  | tellRemoved r last =>
    exact .idle_of_same (still_tellRemoved w r last) (catalog_tellRemoved w r last) Item.tacit_nil
  | tellHook hook r => exact .tellHook hook r
  | retire key seq => exact .retire key seq
  | failBound key ids => exact .fail key ids
  | pass token => exact .pass token
  | wake name => exact .wake name
  | addReplica name r token => exact does_addReplica name r token
  | closeSession app => exact does_closeSession app
  | endSession app => exact does_endSession app
  | releaseNode key => exact does_releaseNode key
  | handOver orders => exact does_handOver orders
  | rescue b => exact does_rescue b
  | runDeferred => exact does_runDeferred
  | joinNode app v next => exact does_joinNode app v next
  | takeOver im => exact does_takeOver im
  | takenOver name sources next => exact does_takenOver name sources next
  | prepare p => exact does_prepare p

/-! ## What telling leads to -/

/-- Who tells a monitor an event changes but what was told. -/
theorem deliver_frame (w : World) (m : Monitor) (e : Event) :
    (w.deliver m e).1.schedule = w.schedule ∧ (w.deliver m e).1.pool = w.pool ∧
      (w.deliver m e).1.disturbances = w.disturbances ∧
      (w.deliver m e).1.log = (w.note (.delivered m e)).log := by
  unfold World.deliver
  dsimp only
  split <;> try exact ⟨rfl, rfl, rfl, rfl⟩
  split <;> exact ⟨rfl, rfl, rfl, rfl⟩

/-- An event leads to a prompt, or a session passes it on and may close. -/
theorem mem_deliver {w : World} {m : Monitor} {e : Event} {j : Item} (hj : j ∈ (w.deliver m e).2) :
    (∃ p, j = .prompt p) ∨ ∃ app inner, m = .session app inner ∧
      (j = .deliver inner e ∨ e.isTerminal = true ∧ j = .closeSession app) := by
  cases m with
  | silent | recorder _ _ => cases hj
  | client id name => exact .inl ⟨_, List.mem_singleton.mp hj⟩
  | mailbox id =>
    unfold World.deliver at hj
    dsimp only at hj
    split at hj <;> cases hj
  | session app inner =>
    refine .inr ⟨app, inner, rfl, ?_⟩
    rcases List.mem_cons.mp hj with hj | hj
    · exact .inl hj
    · split at hj
      · next hend => exact .inr ⟨hend, List.mem_singleton.mp hj⟩
      · cases hj

/-- Who tells a hook a record changes but what was told. -/
theorem tellHook_frame (w : World) (hook : RemovalHook) (r : RemovedWorker) :
    (w.tellHook hook r).1.schedule = w.schedule ∧ (w.tellHook hook r).1.pool = w.pool ∧
      (w.tellHook hook r).1.disturbances = w.disturbances ∧
      (w.tellHook hook r).1.log = (w.note (.hooked hook r)).log := by
  unfold World.tellHook
  dsimp only
  split
  · exact ⟨rfl, rfl, rfl, rfl⟩
  · split <;> exact ⟨rfl, rfl, rfl, rfl⟩

/-- A record leads at most to rescues. -/
theorem mem_tellHook {w : World} {hook : RemovalHook} {r : RemovedWorker} {j : Item}
    (hj : j ∈ (w.tellHook hook r).2) : ∃ orders, j = .handOver orders := by
  unfold World.tellHook at hj
  dsimp only at hj
  split at hj
  · cases hj
  · split at hj
    · exact ⟨_, List.mem_singleton.mp hj⟩
    · cases hj

/-! ## What becomes of the table -/

/-- What a deed makes of the table of actions. -/
inductive Moves (w : World) : Deed → Schedule → Prop where
  /-- Nothing. -/
  | same {d : Deed} (hw : ∀ name, d ≠ .wake name) (hs : ∀ task monitor, d ≠ .submit task monitor) :
    Moves w d w.schedule
  /-- Actions are bound. -/
  | pass : Moves w .pass w.passed.schedule
  /-- Actions become ready. -/
  | wake (name : String) : Moves w (.wake name) (w.schedule.wake name).1
  /-- An action is accepted. -/
  | submit (task : Submission) (monitor : Monitor) :
    Moves w (.submit task monitor) (w.schedule.accept w.catalog task monitor).2.1
  /-- A live action ends. -/
  | conclude {id : Nat} {x : Entry} (ending : Ending) (live : w.schedule.actions.get? id = some x) :
    Moves w (.conclude id ending)
      (w.schedule.conclude w.pool x (ending.events id) ending.state).1
  /-- A bound action is being executed. -/
  | run {id : Nat} {s : Schedule} (marked : w.schedule.markRunning? id = some s) :
    Moves w (.run id) s
  /-- The actions of a lost worker fail. -/
  | fail (key : WorkerKey) (ids : List Nat) : Moves w (.fail key ids) (w.schedule.abandon key ids).1

theorem Does.moves {d : Deed} {e : Effect} (h : w.Does d e) : w.Moves d e.1.schedule := by
  have hsame {d : Deed} {s : Schedule} (hs : s = w.schedule) (hw : ∀ name, d ≠ .wake name)
      (ha : ∀ task monitor, d ≠ .submit task monitor) : w.Moves d s := hs ▸ .same hw ha
  cases h with
  | idle still _ _ => exact hsame still.schedule nofun nofun
  | deliver m e => exact hsame (deliver_frame w m e).1 nofun nofun
  | tellHook hook r => exact hsame (tellHook_frame w hook r).1 nofun nofun
  | pass token => exact .pass
  | wake name =>
    have hs : (w.wake name).1.schedule = (w.schedule.wake name).1 := by
      unfold World.wake
      dsimp only
      split <;> rfl
    rw [hs]
    exact .wake name
  | submit task monitor _ => exact .submit task monitor
  | conclude ending live _ _ => exact .conclude ending live
  | run marked _ => exact .run marked
  | fail key ids => exact .fail key ids
  | remove key hook _ =>
    refine hsame ?_ nofun nofun
    unfold removeWorker
    dsimp only
    split <;> rfl
  | retire key seq =>
    refine hsame ?_ nofun nofun
    unfold World.retire
    split <;> rfl
  | _ => exact hsame rfl nofun nofun

/-- All other deeds leave the table as it is. -/
theorem Moves.eq_self {d : Deed} {s : Schedule} (h : w.Moves d s) (hd : d.moves = false) :
    s = w.schedule := by
  cases h with
  | same _ _ => rfl
  | _ => cases hd

/-! ## What holds of every item -/

/-- Monitors and hooks are told what the deed tells them. -/
theorem Does.told {d : Deed} {e : Effect} (h : w.Does d e) :
    e.1.deliveries = w.deliveries ++ d.delivery?.toList ∧
      e.1.hookings = w.hookings ++ d.hooking?.toList := by
  have hsame {w' : World} (h : w'.log = w.log) :
      w'.deliveries = w.deliveries ++ [] ∧ w'.hookings = w.hookings ++ [] := by
    simp [deliveries, hookings, h]
  cases h with
  | idle still _ _ =>
    exact ⟨still.deliveries.trans (List.append_nil _).symm,
      still.hookings.trans (List.append_nil _).symm⟩
  | note n => exact ⟨deliveries_note w n, hookings_note w n⟩
  | deliver m e =>
    unfold deliveries hookings
    rw [(deliver_frame w m e).2.2.2]
    exact ⟨deliveries_note w _, hookings_note w _⟩
  | tellHook hook r =>
    unfold deliveries hookings
    rw [(tellHook_frame w hook r).2.2.2]
    exact ⟨deliveries_note w _, hookings_note w _⟩
  | wake name =>
    refine hsame ?_
    unfold World.wake
    dsimp only
    split <;> rfl
  | remove key hook _ =>
    refine hsame ?_
    unfold removeWorker
    dsimp only
    split <;> rfl
  | retire key seq =>
    refine hsame ?_
    unfold World.retire
    split <;> rfl
  | _ => exact hsame rfl

/-- An item tells a monitor what it says. -/
theorem deliveries_carryOut (w : World) (i : Item) :
    (w.carryOut i).1.deliveries = w.deliveries ++ i.delivery?.toList := by
  rw [(w.does_carryOut i).told.1, (Moment.told_deed w i).1]

/-- An item tells a hook what it says. -/
theorem hookings_carryOut (w : World) (i : Item) :
    (w.carryOut i).1.hookings = w.hookings ++ i.hooking?.toList := by
  rw [(w.does_carryOut i).told.2, (Moment.told_deed w i).2]

/-- Whatever becomes available is announced. -/
theorem announces_carryOut (w : World) (i : Item) :
    w.catalog.Announces (w.carryOut i).1.catalog (wakes (w.carryOut i).2) := by
  have hsame {e : Effect} (h : e.1.catalog = w.catalog) :
      w.catalog.Announces e.1.catalog (wakes e.2) := h.symm ▸ .refl w.catalog
  have hdoes := w.does_carryOut i
  generalize w.carryOut i = e at hdoes ⊢
  generalize Moment.deed ⟨w, i⟩ = d at hdoes
  cases hdoes with
  | idle _ _ announces => exact announces
  | deliver m e => exact hsame (catalog_deliver w m e)
  | tellHook hook r => exact hsame (catalog_tellHook w hook r)
  | pass token =>
    exact (Pass.amid_run w.policy
      (Pass.start w.schedule w.pool w.catalog w.disturbances w.scored)).announces
  | wake name => exact hsame (catalog_wake w name)
  | remove key hook _ =>
    unfold removeWorker
    cases h : w.pool.requestRemoval? w.catalog key hook with
    | none => exact hsame rfl
    | some r =>
      cases r with
      | draining n q => exact hsame rfl
      | left d => exact Pool.announces_departs (.asked h)
  | lose lost _ => exact Pool.announces_departs (.lost lost)
  | retire key seq =>
    unfold World.retire
    cases h : w.pool.retire? w.catalog key seq with
    | none => exact hsame rfl
    | some d => exact Pool.announces_departs (.drained h)
  | pool token o => exact w.pool.announces_perform w.catalog o
  | _ => exact hsame rfl

end World

end TaskGrid
