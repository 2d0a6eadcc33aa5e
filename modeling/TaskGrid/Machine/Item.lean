import TaskGrid.Machine.World

/-!
# Items of the agenda

An operation of the grid is a sequence of indivisible items.  Carrying out an item may put further
items in front of the rest, so that what an item leads to is over before the next item begins: a
call nested in a notification returns before the notification is over.

A `prompt` is the place where the outside may answer: a client that was told an event may then
have commands of its own carried out.
-/

namespace TaskGrid

/-- A task that is being prepared to run as an application. -/
structure Preparation where
  /-- The command to answer. -/
  token : Nat
  /-- The application. -/
  app : ApplicationId
  /-- The nodes still to register. -/
  offers : List Offer
  /-- The data still to take over. -/
  imports : List RemoteData
  /-- The task. -/
  submission : Submission
  /-- Who is told about it. -/
  monitor : Monitor
  deriving DecidableEq

/-- What goes on when a node was registered or a datum taken over. -/
inductive Resume where
  /-- A command is answered. -/
  | answer (token : Nat)
  /-- A task is prepared further. -/
  | prepare (p : Preparation)
  deriving DecidableEq

/-- A datum that is being taken over. -/
structure Import where
  /-- The name by which it is known here. -/
  name : String
  /-- The sources still to look at. -/
  sources : List RemoteSource
  /-- How many other names of it were found. -/
  found : Nat := 0
  /-- The last of them. -/
  otherName : Option String := none
  /-- The replicas to record. -/
  replicas : List Replica := []
  /-- What goes on then. -/
  resume : Resume
  deriving DecidableEq

/-- A place where the outside may answer. -/
inductive Prompt where
  /-- A client was told an event. -/
  | event (client : Nat) (e : Event)
  /-- The outside asked to have its turn here. -/
  | turn (token : Nat)
  deriving DecidableEq

/-- An indivisible piece of work. -/
inductive Item where
  /-- Carries out a command and answers it. -/
  | obey (token : Nat) (c : Command)
  /-- Writes a notice into the log. -/
  | note (n : Notice)
  /-- Lets the outside answer. -/
  | prompt (p : Prompt)
  /-- Tells a monitor an event. -/
  | deliver (m : Monitor) (e : Event)
  /-- Tells the listener bindings and free capacities. -/
  | report (assignments : List Assignment) (capacity : List (WorkerKey × Capacity))
  /-- Tells the listener what is free on a worker. -/
  | tellCapacity (key : WorkerKey) (free : Capacity)
  /-- Tells the listener that a worker left; `last` says that nobody else will see to its
  rescues. -/
  | tellRemoved (r : RemovedWorker) (last : Bool)
  /-- Tells a hook that a worker left. -/
  | tellHook (hook : RemovalHook) (r : RemovedWorker)
  /-- Lets a drained worker leave. -/
  | retire (key : WorkerKey) (seq : Nat)
  /-- Lets the actions fail that were bound to a lost worker. -/
  | failBound (key : WorkerKey) (ids : List Nat)
  /-- Runs a scheduling pass, and answers a command with its bindings if there is one. -/
  | pass (token : Option Nat)
  /-- Wakes the actions that wait for a name. -/
  | wake (name : String)
  /-- Adds a replica, and answers a command if there is one. -/
  | addReplica (name : String) (r : Replica) (token : Option Nat)
  /-- The main action of an application has ended. -/
  | closeSession (app : ApplicationId)
  /-- Closes a session and releases its nodes. -/
  | endSession (app : ApplicationId)
  /-- Asks a node of a closed session to leave. -/
  | releaseNode (key : WorkerKey)
  /-- Hands rescue orders to the sink. -/
  | handOver (orders : List RescueOrder)
  /-- Carries out a batch of rescue orders. -/
  | rescue (b : RescueBatch)
  /-- Carries out the batches that were put off. -/
  | runDeferred
  /-- Records a registered node of an application. -/
  | joinNode (app : ApplicationId) (view : WorkerView) (resume : Resume)
  /-- Takes over a datum. -/
  | takeOver (i : Import)
  /-- A datum was taken over from so many sources. -/
  | takenOver (name : String) (sources : Nat) (resume : Resume)
  /-- Prepares a task to run as an application. -/
  | prepare (p : Preparation)

namespace Item

/-- The answer to a command. -/
def reply (token : Nat) (r : Reply) : Item := .note (.replied token r)

/-- What there is to tell after a change: events, then the listener's share, then the workers that
can leave. -/
def ofOutbox (o : Outbox) : List Item :=
  o.events.map (fun x => deliver x.1 x.2) ++ report o.assignments o.capacity ::
    o.drained.map fun x => retire x.1 x.2

/-- What happened while candidates were scored. -/
def ofIncident : Incident → Item
  | .told hook r => tellHook hook r
  | .answered name a => note (.disturbed name a)

/-- Every hook of a departure is told its record. -/
def ofHooks (d : Pool.Departure) : List Item := d.hooks.map fun h => tellHook h d.removed

end Item

end TaskGrid
