import TaskGrid.Agent.Request
import TaskGrid.Agent.Rescue
import TaskGrid.Observer.Monitor
import TaskGrid.Pool.Operation
import TaskGrid.Schedule.Table

/-!
# Commands and replies

Everything that can be asked of the grid and changes it, and what it answers.  Questions that
change nothing are asked of the grid's state directly.
-/

namespace TaskGrid

/-- Who observes the scheduler as a whole. -/
structure Listener where
  /-- Whether it takes over the rescues of removed workers. -/
  claims : Bool := false
  /-- Whether it only listens to bindings. -/
  quiet : Bool := false
  deriving DecidableEq

/-- A command to the grid. -/
inductive Command where
  /-- Offers capacity under a key. -/
  | addWorker (key : WorkerKey) (offered : Capacity) (adaptor : Adaptor)
  /-- Withdraws free capacity of a worker. -/
  | reduceWorker (key : WorkerKey) (reduction : Capacity)
  /-- Asks a worker to leave. -/
  | removeWorker (key : WorkerKey) (hook : Option RemovalHook)
  /-- Gives a worker up as lost. -/
  | loseWorker (key : WorkerKey)
  /-- Submits a task. -/
  | submit (task : Submission) (monitor : Monitor)
  /-- Runs a scheduling pass. -/
  | pass
  /-- A bound action is being executed. -/
  | markRunning (id : Nat)
  /-- A bound action finished with these values. -/
  | complete (id : Nat) (outputs : List ProducedValue)
  /-- A live action failed. -/
  | fail (id : Nat) (reason : FailureReason)
  /-- A live action is to be cancelled. -/
  | cancel (id : Nat)
  /-- Replaces the listener. -/
  | setListener (listener : Listener)
  /-- Changes the pool alone. -/
  | pool (operation : Pool.Operation)
  /-- Registers a datum. -/
  | register (name : String)
  /-- Links a further name to a datum. -/
  | link (name existing : String)
  /-- Adds a replica to a datum. -/
  | addReplica (name : String) (replica : Replica)
  /-- A host mounts a shared disk. -/
  | mount (disk host point : String)
  /-- A host unmounts every shared disk. -/
  | unmountHost (host : String)
  /-- Starts or joins a copy. -/
  | startCopy (name : String) (target : Replica) (listener : Option String)
  /-- Listens to a copy in flight. -/
  | listenToCopy (id : Nat) (data listener : String)
  /-- A copy was transferred. -/
  | finishCopy (id : Nat) (data : String)
  /-- A copy could not be transferred. -/
  | failCopy (id : Nat) (data reason : String)
  /-- Takes the replicas that leave with a host from one datum. -/
  | removeHost (name host : String)
  /-- Marks a datum as superseded. -/
  | markObsolete (name : String)
  /-- Empties the queue of superseded data of a host. -/
  | takeObsolete (host : String)
  /-- Forgets what is kept for a host. -/
  | forgetHost (host : String)
  /-- Records whether a value is in local memory. -/
  | setInMemory (name : String) (value : Bool)
  /-- Records the size of a datum. -/
  | setSize (name : String) (value : Nat)
  /-- Tells a label about data that become available. -/
  | subscribe (label : String)
  /-- Stops telling a label. -/
  | unsubscribe (label : String)
  /-- Carries out rescue orders. -/
  | rescue (orders : List RescueOrder) (transfer : Transfer)
  /-- Offers a node through the agent. -/
  | offerNode (offer : Offer) (app : Option ApplicationId)
  /-- Uses less of a node. -/
  | reduceNode (request : ReduceRequest)
  /-- Stops using a node. -/
  | removeNode (request : NodeRequest)
  /-- Gives a node up as lost. -/
  | loseNode (request : NodeRequest)
  /-- Takes over a datum from elsewhere. -/
  | importData (request : RemoteData)
  /-- Runs a task as an application of its own. -/
  | runTask (request : TaskRequest) (monitor : Monitor)
  /-- Closes an application early. -/
  | finishApplication (app : ApplicationId)
  /-- Notes rescue orders from now on. -/
  | noteRescues
  /-- Carries out rescue orders from now on, with a channel for reports if one is wanted. -/
  | dispatchRescues (transfer : Transfer) (deferred reports : Bool)
  /-- Hands rescue orders to the sink. -/
  | dispatch (orders : List RescueOrder)
  /-- Carries out the batches that were put off. -/
  | runDeferred
  /-- Collects the reports. -/
  | collectReports
  /-- Stops receiving reports. -/
  | dropReports
  /-- Dismisses the agent. -/
  | dismissAgent
  /-- Opens a session. -/
  | startSession (monitor : Monitor)
  /-- Records a node of a session. -/
  | addSessionNode (app : ApplicationId) (key : WorkerKey)
  /-- Closes a session without releasing its nodes. -/
  | finishSession (app : ApplicationId)
  /-- Tells the monitor of a session an event. -/
  | tellSession (app : ApplicationId) (event : Event)
  /-- Collects the events of a mailbox. -/
  | collectMail (mailbox : Nat)
  /-- Closes a mailbox. -/
  | closeMailbox (mailbox : Nat)

/-- What the grid answers to a command. -/
inductive Reply where
  /-- The command was carried out. -/
  | done
  /-- A truth value. -/
  | flag (b : Bool)
  /-- An identifier or a count. -/
  | number (n : Nat)
  /-- A name. -/
  | name (s : String)
  /-- Names. -/
  | names (l : List String)
  /-- The answer of the pool. -/
  | pool (a : Pool.Answer)
  /-- The bindings of a pass. -/
  | assignments (l : List Assignment)
  /-- The handle of a copy. -/
  | handle (h : CopyHandle)
  /-- A replica, or none. -/
  | replica (r : Option Replica)
  /-- The application of a new session. -/
  | app (a : ApplicationId)
  /-- An application and its action. -/
  | started (a : ApplicationId) (action : Nat)
  /-- The nodes of a closed session, if it was open. -/
  | nodes (l : Option (List WorkerKey))
  /-- A rescue report. -/
  | report (r : RescueReport)
  /-- The collected reports, if there is a channel. -/
  | reports (l : Option (List RescueReport))
  /-- The collected events, if the mailbox is open. -/
  | mail (l : Option (List Event))
  /-- The command was refused. -/
  | refused (f : Fault)
  /-- There is no agent. -/
  | noAgent
  /-- There is no rescue sink. -/
  | noSink
  deriving DecidableEq

end TaskGrid
