import TaskGrid.Capacity.Basic
import TaskGrid.Catalog.Departure
import TaskGrid.Sorted.Map
import TaskGrid.Worker.Key

/-!
# Workers

A worker offers capacity.  What of it is free shrinks as actions reserve capacity and grows again
as they release it.  A worker that was asked to leave accepts nothing more and leaves once nothing
is reserved on it; whoever asked may have left a hook, which is told the record of the removal.
-/

namespace TaskGrid

/-- How a worker is reached, which only the caller understands. -/
structure Adaptor where
  /-- The name of the transport. -/
  adaptor : String
  /-- Its settings. -/
  properties : SortedMap String String
  deriving DecidableEq

namespace Adaptor

/-- The adaptor of a name, without settings. -/
def named (name : String) : Adaptor := ⟨name, .empty⟩

instance : Inhabited Adaptor := ⟨named ""⟩

end Adaptor

/-- What is told about a worker that left the pool. -/
structure RemovedWorker where
  /-- The key it had. -/
  key : WorkerKey
  /-- The capacity it took with it. -/
  reclaimed : Capacity
  /-- The data to be saved because their last replica left with the host. -/
  rescues : List RescueOrder
  /-- Whether the worker was lost, and not drained. -/
  forced : Bool
  /-- Whether a hook received this record. -/
  claimed : Bool
  deriving DecidableEq

/-- Who is told the record of a removal. -/
inductive RemovalHook where
  /-- A caller, by its label. -/
  | caller (label : String)
  /-- The agent, which sees to the rescues of workers that were drained. -/
  | agent
  deriving DecidableEq

/-- A registered worker. -/
structure Worker where
  /-- Its place in the order of registrations. -/
  seq : Nat
  /-- How it is reached. -/
  adaptor : Adaptor
  /-- What is free or reserved. -/
  total : Capacity := .empty
  /-- What is free. -/
  free : Capacity := .empty
  /-- What the orchestration node keeps for itself. -/
  withheld : Capacity := .empty
  /-- What each bound action holds. -/
  reservations : SortedMap Nat Capacity := .empty
  /-- Whether it was asked to leave. -/
  removing : Bool := false
  /-- Who is told when it leaves, in the order in which they asked. -/
  hooks : List RemovalHook := []
  deriving DecidableEq

/-- A view of a worker at one moment. -/
structure WorkerView where
  /-- The key. -/
  key : WorkerKey
  /-- Its place in the order of registrations. -/
  seq : Nat
  /-- What is free. -/
  free : Capacity
  /-- What is free or reserved. -/
  total : Capacity
  /-- What the orchestration node keeps for itself. -/
  withheld : Capacity
  /-- The number of actions bound to it. -/
  queueDepth : Nat
  /-- Whether it was asked to leave. -/
  removing : Bool
  deriving DecidableEq

/-- The host that a worker serves. -/
def WorkerView.host (v : WorkerView) : String := v.key.name

namespace Worker

/-- The view of a worker under its key. -/
def view (w : Worker) (key : WorkerKey) : WorkerView where
  key := key
  seq := w.seq
  free := w.free
  total := w.total
  withheld := w.withheld
  queueDepth := w.reservations.size
  removing := w.removing

/-- The actions bound to a worker, in order. -/
def bound (w : Worker) : List Nat := w.reservations.keys

/-- The worker with more capacity. -/
def grow (w : Worker) (c : Capacity) : Worker :=
  { w with total := w.total.merge c, free := w.free.merge c }

/-- The worker after an offer, of which the orchestration node keeps one primary unit, once, if
`keeps` says so. -/
def offer (w : Worker) (keeps : Bool) (c : Capacity) : Worker :=
  if keeps ∧ w.withheld.get .primary = 0 ∧ c.get .primary ≠ 0 then
    { w with withheld := w.withheld.set .primary 1 }.grow (c.set .primary (c.get .primary - 1))
  else w.grow c

/-- The worker with what an action needs reserved, if it accepts and has enough. -/
def reserve? (w : Worker) (action : Nat) (need : Capacity) : Option Worker :=
  if w.removing then none
  else
    match w.free.subtract need with
    | .error _ => none
    | .ok free => some { w with free, reservations := w.reservations.insert action need }

/-- The worker with what an action held free again, if it held anything. -/
def release? (w : Worker) (action : Nat) : Option Worker :=
  (w.reservations.get? action).map fun held =>
    { w with free := w.free.merge held, reservations := w.reservations.erase action }

/-- Whether a worker that was asked to leave can do so. -/
def isDrained (w : Worker) : Bool := w.removing && w.reservations.isEmpty

end Worker

end TaskGrid
