import TaskGrid.Capacity.Basic
import TaskGrid.Replica.Basic

/-!
# Actions

A submission describes a task: the ways to carry it out, the data it reads and writes, and how
urgent it is.  Once accepted it is an action, with an identifier and a place in the order of
submissions.
-/

namespace TaskGrid

/-- One way to carry out a task. -/
structure Implementation where
  /-- What it occupies while bound. -/
  requirement : Capacity
  /-- The code to run, which only the caller understands. -/
  handler : String
  deriving DecidableEq

/-- A task that asks to be carried out. -/
structure Submission where
  /-- The ways to carry it out, preferred ones first. -/
  implementations : List Implementation
  /-- The data it reads. -/
  dependencies : List String := []
  /-- The data it is expected to produce. -/
  outputs : List String := []
  /-- Greater is more urgent. -/
  priority : Int := 0
  /-- Urgency within a group of tasks. -/
  groupPriority : Int := 0
  deriving DecidableEq

namespace Submission

/-- A task with a single way to carry it out. -/
def single (requirement : Capacity) (handler : String) : Submission :=
  { implementations := [⟨requirement, handler⟩] }

/-- The task with another priority. -/
def withPriority (s : Submission) (p : Int) : Submission := { s with priority := p }

/-- The task with another priority within its group. -/
def withGroupPriority (s : Submission) (p : Int) : Submission := { s with groupPriority := p }

/-- The task reading one more datum. -/
def reading (s : Submission) (name : String) : Submission :=
  { s with dependencies := s.dependencies ++ [name] }

/-- The task producing one more datum. -/
def producing (s : Submission) (name : String) : Submission :=
  { s with outputs := s.outputs ++ [name] }

end Submission

/-- An accepted task. -/
structure Action where
  /-- The identifier. -/
  id : Nat
  /-- The place in the order of submissions. -/
  sequence : Nat
  /-- The task. -/
  task : Submission
  deriving DecidableEq

/-- Why an action failed. -/
inductive FailureReason where
  /-- The worker it was bound to is gone. -/
  | nodeLost
  /-- Its execution reported an error. -/
  | execution (message : String)
  deriving DecidableEq

/-- The written form of a reason. -/
def FailureReason.text : FailureReason → String
  | .nodeLost => "node lost"
  | .execution m => "execution error: " ++ m

/-- Where an action is in its life. -/
inductive ActionState where
  /-- It waits for data. -/
  | blocked
  /-- Its data are there and it waits for a worker. -/
  | ready
  /-- It holds capacity of a worker. -/
  | assigned
  /-- It is being executed there. -/
  | running
  /-- It finished. -/
  | completed
  /-- It failed. -/
  | failed (reason : FailureReason)
  /-- It was cancelled. -/
  | cancelled
  deriving DecidableEq

namespace ActionState

/-- Whether the life of the action is over. -/
def isTerminal : ActionState → Bool
  | completed => true
  | failed _ => true
  | cancelled => true
  | _ => false

/-- Whether the action holds capacity of a worker. -/
def holdsCapacity : ActionState → Bool
  | assigned => true
  | running => true
  | _ => false

end ActionState

/-- A value that an action produced. -/
structure ProducedValue where
  /-- The datum. -/
  name : String
  /-- A tag that only the caller understands. -/
  dataType : String
  /-- Where the value is. -/
  location : Replica
  deriving DecidableEq

end TaskGrid
