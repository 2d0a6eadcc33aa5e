import TaskGrid.Agent.Session
import TaskGrid.Machine.Command
import TaskGrid.Schedule.Pass

/-!
# The world

The state of the whole grid: the table of actions, the pool, the catalog of data, the open
sessions, who observes what, and a log of everything that observers were told.  The log is only
ever added to, so that what was told in a run, and in which order, can be read off its end.
-/

namespace TaskGrid

/-- Something that an observer was told. -/
inductive Notice where
  /-- A monitor was told an event. -/
  | delivered (monitor : Monitor) (event : Event)
  /-- The listener was told a binding. -/
  | assigned (a : Assignment)
  /-- The listener was told what is free on a worker. -/
  | capacity (worker : WorkerKey) (free : Capacity)
  /-- The listener was told that a worker left. -/
  | removed (r : RemovedWorker)
  /-- A hook was told that a worker left. -/
  | hooked (hook : RemovalHook) (r : RemovedWorker)
  /-- A subscriber was told that a name is available. -/
  | available (name subscriber : String)
  /-- A listener was told how a copy ended. -/
  | copyEnded (listener data : String) (outcome : CopyOutcome)
  /-- A transfer was asked to save a datum. -/
  | saving (data : String) (source : Replica)
  /-- Orders were handed to the sink; `noted` says that the sink only notes them. -/
  | handedOver (noted : Bool) (orders : List RescueOrder)
  /-- A disturbance of the pool got an answer. -/
  | disturbed (name : String) (answer : Pool.Answer)
  /-- Something has gone wrong for good. -/
  | alarm (a : Alarm)
  /-- A command was answered. -/
  | replied (token : Nat) (reply : Reply)
  deriving DecidableEq

/-- The state of the grid. -/
structure World where
  /-- The actions. -/
  schedule : Schedule
  /-- The workers. -/
  pool : Pool := {}
  /-- The data. -/
  catalog : Catalog := {}
  /-- The policy of scheduling passes. -/
  policy : Policy
  /-- What will disturb the pool while candidates are scored. -/
  disturbances : List Disturbance := []
  /-- How many candidates have been scored. -/
  scored : Nat := 0
  /-- Who observes the scheduler, if anyone. -/
  listener : Option Listener := none
  /-- Who is told about data that become available, after the scheduler. -/
  subscribers : List String := []
  /-- The open sessions, as long as there is an agent. -/
  agent : Option Sessions := some {}
  /-- How many sessions were ever opened. -/
  opened : Nat := 0
  /-- The applications whose main action has ended. -/
  ended : List ApplicationId := []
  /-- Where rescue orders go, if anywhere. -/
  sink : Option RescueSink := none
  /-- The batches that were put off, oldest first. -/
  deferred : List RescueBatch := []
  /-- How many report channels were ever opened. -/
  channels : Nat := 0
  /-- The open report channel with the reports that wait in it, oldest first. -/
  reports : Option (Nat × List RescueReport) := none
  /-- The events that each recorder holds. -/
  recorders : SortedMap String (List Event) := .empty
  /-- The events that wait in each mailbox. -/
  mailboxes : SortedMap Nat (List Event) := .empty
  /-- The mailboxes that were closed. -/
  closedMailboxes : SortedSet Nat := .empty
  /-- What observers were told, the latest first. -/
  log : List Notice := []

namespace World

/-- A grid without workers, data and actions. -/
def fresh (policy : Policy) (localNodes : List String) (withholds : Bool) (historyLimit : Nat) :
    World where
  schedule := { historyLimit }
  pool := { localNodes, withholds }
  policy := policy

/-- The world with a notice in its log. -/
def note (w : World) (n : Notice) : World := { w with log := n :: w.log }

/-- The world with several notices in its log, the first of them told first. -/
def noteAll (w : World) (l : List Notice) : World := l.foldl note w

/-- The open sessions; without an agent there are none. -/
def sessions (w : World) : Sessions := w.agent.getD {}

/-- The number of notices so far. -/
def told (w : World) : Nat := w.log.length

/-- The notices after the first `n`, in the order in which they were told. -/
def toldSince (w : World) (n : Nat) : List Notice := (w.log.take (w.log.length - n)).reverse

/-- The summary of the agent, if there is one. -/
def status? (w : World) : Option AgentStatus :=
  w.agent.map fun s =>
    { workers := w.pool.size
      liveActions := w.schedule.liveCount
      readyActions := w.schedule.readyCount
      sessions := s.size
      policy := w.policy.name }

/-! ## Notices change nothing but the log -/

@[simp] theorem log_note (w : World) (n : Notice) : (w.note n).log = n :: w.log := rfl

@[simp] theorem schedule_note (w : World) (n : Notice) : (w.note n).schedule = w.schedule := rfl

@[simp] theorem pool_note (w : World) (n : Notice) : (w.note n).pool = w.pool := rfl

@[simp] theorem catalog_note (w : World) (n : Notice) : (w.note n).catalog = w.catalog := rfl

@[simp] theorem agent_note (w : World) (n : Notice) : (w.note n).agent = w.agent := rfl

@[simp] theorem noteAll_nil (w : World) : w.noteAll [] = w := rfl

@[simp] theorem noteAll_cons (w : World) (n : Notice) (l : List Notice) :
    w.noteAll (n :: l) = (w.note n).noteAll l := rfl

/-- Several notices change what one notice changes: the log. -/
theorem noteAll_eq (w : World) (l : List Notice) :
    w.noteAll l = { w with log := l.reverse ++ w.log } := by
  induction l generalizing w with
  | nil => rfl
  | cons n l ih => simp [ih, note]

/-- What was noted since is read back in the order in which it was told. -/
theorem toldSince_noteAll (w : World) (l : List Notice) : (w.noteAll l).toldSince w.told = l := by
  simp [noteAll_eq, toldSince, told]

end World

end TaskGrid
