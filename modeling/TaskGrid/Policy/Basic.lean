import TaskGrid.Policy.Score
import TaskGrid.Pool.Operation
import TaskGrid.Action.Basic

/-!
# Policies

A policy says how good it is to carry out an action on a worker in a certain way.  It may look at
the action, at the view of the worker, at the implementation and at the catalog of data.

* `Policy.fifo`: priority, then the order of submission.
* `Policy.dataLocality`: priority, then how many of the data are at hand on the host.
* `Policy.loadBalancing`: priority, priority within the group, age, then the least loaded worker.
* `Policy.ofTable`: scores looked up in a table.
-/

namespace TaskGrid

/-- A way to rank candidate bindings. -/
structure Policy where
  /-- The name. -/
  name : String
  /-- The score of carrying out an action on a worker in a certain way. -/
  score : Catalog → Action → WorkerView → Implementation → Score

namespace Policy

/-- The greatest score field. -/
def fieldLimit : Nat := 9223372036854775807

/-- A count as a score field. -/
def field (n : Nat) : Int := min n fieldLimit

/-- Priority, then the order of submission. -/
def fifo : Policy where
  name := "fifo"
  score _ a _ _ := ⟨[a.task.priority, -field a.sequence], a.id⟩

/-- How many of the data that an action reads a host can read, counted with repetition. -/
def resident (c : Catalog) (a : Action) (host : String) : Nat :=
  a.task.dependencies.countP fun name => (c.resolve? name host).isSome

/-- Priority, then how many of the data are at hand on the host. -/
def dataLocality : Policy where
  name := "data_locality"
  score c a w _ := ⟨[a.task.priority, field (resident c a w.host)], a.id⟩

/-- Priority, priority within the group, age, then the least loaded worker. -/
def loadBalancing : Policy where
  name := "load_balancing"
  score _ a w _ :=
    ⟨[a.task.priority, a.task.groupPriority, -field a.id, -field w.queueDepth], a.id⟩

/-- What a candidate binding has to be like. -/
structure Pattern where
  /-- The action, if it matters. -/
  action : Option Nat := none
  /-- The name of the worker, if it matters. -/
  worker : Option String := none
  /-- The handler, if it matters. -/
  handler : Option String := none
  deriving DecidableEq

/-- Whether a candidate binding fits a pattern. -/
def Pattern.fits (p : Pattern) (a : Action) (w : WorkerView) (i : Implementation) : Bool :=
  p.action.all (· == a.id) && p.worker.all (· == w.key.name) && p.handler.all (· == i.handler)

/-- The fields of the first row whose pattern fits, and no fields where none does. -/
def ofTable (rows : List (Pattern × List Int)) : Policy where
  name := "table"
  score _ a w i := ⟨((rows.find? fun r => r.1.fits a w i).map Prod.snd).getD [], a.id⟩

end Policy

/-- An operation on the pool that happens while candidates are scored: at the first score for
which it is due, and only then. -/
structure Disturbance where
  /-- Whether it is due, given the number of scores so far and the candidate. -/
  due : Nat → Action → WorkerView → Implementation → Bool
  /-- What is done to the pool. -/
  operation : Pool.Operation
  /-- The name under which the answer is noted. -/
  name : String

end TaskGrid
