import TaskGrid.Observer.Monitor
import TaskGrid.Policy.Basic

/-!
# The table of actions

The scheduler keeps every live action with its state, the data it misses and the worker it is
bound to.  Ready actions and blocked ones are also listed apart, the blocked ones by each name
they miss, and the last actions that ended are remembered.

Each operation here changes the table once and collects what there is to tell in an `Outbox`,
which is delivered afterwards.

## Main definitions

* `Schedule.accept`: a submission becomes a ready or a blocked action.
* `Schedule.wake`: blocked actions whose last missing datum appeared become ready.
* `Schedule.conclude`: a live action ends and what it holds is released.
* `Schedule.abandon`: the actions bound to a lost worker fail.
-/

namespace TaskGrid

/-- A binding of an action to a worker. -/
structure Assignment where
  /-- The action. -/
  action : Nat
  /-- The worker on which capacity was reserved. -/
  worker : WorkerKey
  /-- The position of the implementation. -/
  implementation : Nat
  /-- Its handler. -/
  handler : String
  /-- The reserved capacity. -/
  requirement : Capacity
  deriving DecidableEq

/-- What there is to tell after a change. -/
structure Outbox where
  /-- Events, each with the monitor to tell. -/
  events : List (Monitor × Event) := []
  /-- Bindings. -/
  assignments : List Assignment := []
  /-- Workers whose free capacity changed, with what is free now. -/
  capacity : List (WorkerKey × Capacity) := []
  /-- Workers that can leave as they were asked to, with their registration numbers. -/
  drained : List (WorkerKey × Nat) := []
  deriving DecidableEq

/-- A live action. -/
structure Entry where
  /-- The action. -/
  action : Action
  /-- Where it is in its life. -/
  state : ActionState
  /-- Who is told about it. -/
  monitor : Monitor
  /-- The kinds of events that were told, except values. -/
  told : List Event.Kind := []
  /-- The data it waits for. -/
  missing : SortedSet String
  /-- The worker it is bound to. -/
  binding : Option WorkerKey := none
  deriving DecidableEq

/-- Puts an event into the outbox, unless its kind was told before.  Values are told every time. -/
def Entry.emit (x : Entry) (e : Event) (o : Outbox) : Entry × Outbox :=
  if e.kind ∈ x.told then (x, o)
  else
    ({ x with told := if e.kind = .valueProduced then x.told else e.kind :: x.told },
      { o with events := o.events ++ [(x.monitor, e)] })

/-- The table of actions. -/
structure Schedule where
  /-- The live actions. -/
  actions : SortedMap Nat Entry := .empty
  /-- The ready actions. -/
  ready : SortedSet Nat := .empty
  /-- For each missing name the actions that wait for it. -/
  blocked : SortedMap String (SortedSet Nat) := .empty
  /-- The last actions that ended, oldest first. -/
  history : List (Nat × ActionState) := []
  /-- How many ended actions are remembered. -/
  historyLimit : Nat
  /-- The next action identifier. -/
  nextId : Nat := 1
  /-- The next place in the order of submissions. -/
  nextSequence : Nat := 1
  deriving DecidableEq

namespace Schedule

/-! ## Queries -/

/-- How an action ended, if that is remembered. -/
def ended? (s : Schedule) (id : Nat) : Option ActionState :=
  (s.history.reverse.find? fun e => e.1 = id).map Prod.snd

/-- The state of an action that is live or remembered. -/
def stateOf? (s : Schedule) (id : Nat) : Option ActionState :=
  ((s.actions.get? id).map Entry.state).or (s.ended? id)

/-- The worker that a live action is bound to. -/
def bindingOf? (s : Schedule) (id : Nat) : Option WorkerKey :=
  (s.actions.get? id).bind Entry.binding

/-- The number of live actions. -/
def liveCount (s : Schedule) : Nat := s.actions.size

/-- The number of ready actions. -/
def readyCount (s : Schedule) : Nat := s.ready.size

/-- The number of blocked actions. -/
def blockedCount (s : Schedule) : Nat := s.actions.values.countP fun x => x.state = .blocked

/-! ## Changes -/

/-- The table with an ended action remembered; the oldest one gives way where there are too
many. -/
def remember (s : Schedule) (id : Nat) (state : ActionState) : Schedule :=
  if s.historyLimit = 0 then s
  else
    { s with
      history :=
        (if s.historyLimit ≤ s.history.length then s.history.drop 1 else s.history) ++
          [(id, state)] }

/-- The table without an action among those that wait for a name. -/
def unblock (s : Schedule) (id : Nat) (name : String) : Schedule :=
  match s.blocked.get? name with
  | none => s
  | some waiting =>
    let left := waiting.erase id
    { s with blocked := if left.isEmpty then s.blocked.erase name else s.blocked.insert name left }

/-- The table with an action neither ready nor waiting for any of `names`. -/
def unqueue (s : Schedule) (id : Nat) (names : List String) : Schedule :=
  names.foldl (fun s name => s.unblock id name) { s with ready := s.ready.erase id }

/-- The table with an action waiting for `names`. -/
def enqueue (s : Schedule) (id : Nat) (names : List String) : Schedule :=
  { s with
    blocked := names.foldl
      (fun b name => b.insert name (((b.get? name).getD .empty).insert id)) s.blocked }

/-- Accepts a submission: it is ready if all its data are available, and else waits for those
that are not. -/
def accept (s : Schedule) (c : Catalog) (task : Submission) (monitor : Monitor) :
    Nat × Schedule × Outbox :=
  let id := s.nextId
  let missing := SortedSet.ofList (task.dependencies.filter fun name => !c.isAvailable name)
  let entry : Entry :=
    { action := ⟨id, s.nextSequence, task⟩, state := .blocked, monitor, missing }
  let (entry, outbox) := entry.emit (.created id) {}
  let s := { s with nextId := id + 1, nextSequence := s.nextSequence + 1 }
  if missing.isEmpty then
    let (entry, outbox) := { entry with state := .ready }.emit (.ready id) outbox
    (id, { s with ready := s.ready.insert id, actions := s.actions.insert id entry }, outbox)
  else
    let s := s.enqueue id missing.toList
    (id, { s with actions := s.actions.insert id entry }, outbox)

/-- One waiting action is told that a name appeared; it becomes ready if it waited for nothing
else. -/
def wakeOne (name : String) (s : Schedule) (o : Outbox) (id : Nat) : Schedule × Outbox :=
  match s.actions.get? id with
  | none => (s, o)
  | some x =>
    let x := { x with missing := x.missing.erase name }
    if x.missing.isEmpty ∧ x.state = .blocked then
      let (x, o) := { x with state := .ready }.emit (.ready id) o
      ({ s with ready := s.ready.insert id, actions := s.actions.insert id x }, o)
    else ({ s with actions := s.actions.insert id x }, o)

/-- A name appeared.  Returns the table and what there is to tell about the actions that became
ready. -/
def wake (s : Schedule) (name : String) : Schedule × Outbox :=
  match s.blocked.get? name with
  | none => (s, {})
  | some waiting =>
    waiting.toList.foldl (fun (s, o) id => wakeOne name s o id)
      ({ s with blocked := s.blocked.erase name }, {})

/-- The pool with what an entry holds released, and what there is to tell about it. -/
def releaseBinding (p : Pool) (x : Entry) (o : Outbox) : Pool × Outbox :=
  match x.binding with
  | none => (p, o)
  | some key =>
    match p.release? key x.action.id with
    | none => (p, o)
    | some r =>
      (r.pool, { o with
        capacity := o.capacity ++ [(key, r.free)]
        drained := o.drained ++ r.drained.toList.map fun seq => (key, seq) })

/-- A live action ends: it leaves the table, what it holds is released, the events of its end are
told and its last state is remembered. -/
def conclude (s : Schedule) (p : Pool) (x : Entry) (events : List Event) (last : ActionState) :
    Schedule × Pool × Outbox :=
  let id := x.action.id
  let s := { s with actions := s.actions.erase id }.unqueue id x.missing.toList
  let (p, o) := releaseBinding p x {}
  let (_, o) := events.foldl (fun (x, o) e => Entry.emit x e o) (x, o)
  (s.remember id last, p, o)

/-- One action fails because the worker of `key` is lost, if it is bound there. -/
def abandonOne (key : WorkerKey) (s : Schedule) (o : Outbox) (id : Nat) : Schedule × Outbox :=
  match s.actions.get? id with
  | none => (s, o)
  | some x =>
    if x.binding = some key then
      let (_, o) := x.emit (.failed id .nodeLost) o
      ({ s with actions := s.actions.erase id }.remember id (.failed .nodeLost), o)
    else (s, o)

/-- The actions that were bound to a lost worker fail. -/
def abandon (s : Schedule) (key : WorkerKey) (ids : List Nat) : Schedule × Outbox :=
  ids.foldl (fun (s, o) id => abandonOne key s o id) (s, {})

/-- The table with a bound action being executed, if it is bound. -/
def markRunning? (s : Schedule) (id : Nat) : Option Schedule :=
  (s.actions.get? id).bind fun x =>
    if x.state.holdsCapacity then
      some { s with actions := s.actions.insert id { x with state := .running } }
    else none

end Schedule

end TaskGrid
