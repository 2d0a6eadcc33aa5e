import TaskGrid.Action.Basic
import TaskGrid.Worker.Key

/-!
# Events in the life of an action

Events tell the monitor of an action what happened to it.  Every kind of event is told at most
once for an action, except the production of a value, which is told once for each value.
-/

namespace TaskGrid

/-- Something that happened to an action. -/
inductive Event where
  /-- It was accepted. -/
  | created (action : Nat)
  /-- All its data are there. -/
  | ready (action : Nat)
  /-- It was bound to a worker. -/
  | assigned (action : Nat) (worker : WorkerKey) (implementation : Nat)
  /-- It produced a value. -/
  | valueProduced (action : Nat) (value : ProducedValue)
  /-- No registered worker could ever carry it out. -/
  | noEligibleResource (action : Nat)
  /-- It finished. -/
  | completed (action : Nat)
  /-- It failed. -/
  | failed (action : Nat) (reason : FailureReason)
  /-- It was cancelled. -/
  | cancelled (action : Nat)
  deriving DecidableEq

namespace Event

/-- A kind of event. -/
inductive Kind where
  | created
  | ready
  | assigned
  | valueProduced
  | noEligibleResource
  | completed
  | failed
  | cancelled
  deriving DecidableEq

namespace Kind

/-- The kinds. -/
def all : List Kind :=
  [created, ready, assigned, valueProduced, noEligibleResource, completed, failed, cancelled]

/-- The written name. -/
def name : Kind → String
  | created => "created"
  | ready => "ready"
  | assigned => "assigned"
  | valueProduced => "value_produced"
  | noEligibleResource => "no_eligible_resource"
  | completed => "completed"
  | failed => "failed"
  | cancelled => "cancelled"

/-- The kind of a written name. -/
def ofName? (s : String) : Option Kind := all.find? fun k => k.name = s

end Kind

/-- The kind of an event. -/
def kind : Event → Kind
  | created _ => .created
  | ready _ => .ready
  | assigned .. => .assigned
  | valueProduced .. => .valueProduced
  | noEligibleResource _ => .noEligibleResource
  | completed _ => .completed
  | failed .. => .failed
  | cancelled _ => .cancelled

/-- The action that an event is about. -/
def action : Event → Nat
  | created a => a
  | ready a => a
  | assigned a _ _ => a
  | valueProduced a _ => a
  | noEligibleResource a => a
  | completed a => a
  | failed a _ => a
  | cancelled a => a

/-- Whether an event ends the life of its action. -/
def isTerminal : Event → Bool
  | completed _ => true
  | failed .. => true
  | cancelled _ => true
  | _ => false

end Event

end TaskGrid
