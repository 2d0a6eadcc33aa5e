import TaskGrid.Pool.Basic

/-!
# Operations on the pool alone

The operations of the pool as values, for callers that change the pool without going through a
scheduler: nothing is reported and no pass runs.
-/

namespace TaskGrid

/-- What became of a worker that was asked to leave. -/
inductive RemovalStatus where
  /-- It left. -/
  | removed (r : RemovedWorker)
  /-- It waits for this many actions. -/
  | draining (actions : Nat)
  deriving DecidableEq

/-- What became of a worker that was lost. -/
structure LostWorker where
  /-- The actions that were bound to it. -/
  bound : List Nat
  /-- The record of the removal. -/
  removed : RemovedWorker
  deriving DecidableEq

namespace Pool

/-- An operation on the pool. -/
inductive Operation where
  /-- Offers capacity. -/
  | add (key : WorkerKey) (offered : Capacity) (adaptor : Adaptor)
  /-- Withdraws capacity. -/
  | reduce (key : WorkerKey) (c : Capacity)
  /-- Asks a worker to leave. -/
  | remove (key : WorkerKey) (hook : Option RemovalHook)
  /-- Gives a worker up as lost. -/
  | lose (key : WorkerKey)
  /-- Looks at a worker. -/
  | look (key : WorkerKey)
  deriving DecidableEq

/-- What an operation answers. -/
inductive Answer where
  /-- The view of a worker. -/
  | view (v : WorkerView)
  /-- The view of a worker that may not be registered. -/
  | seen (v : Option WorkerView)
  /-- What became of a request to leave. -/
  | removal (s : RemovalStatus)
  /-- What became of a lost worker. -/
  | lost (l : LostWorker)
  /-- The operation was refused. -/
  | refused (f : Fault)
  deriving DecidableEq

/-- The outcome of an operation. -/
structure Outcome where
  /-- The answer. -/
  answer : Answer
  /-- The pool afterwards. -/
  pool : Pool
  /-- The catalog afterwards. -/
  catalog : Catalog
  /-- The hooks to tell, with the record they are told. -/
  told : List (RemovalHook × RemovedWorker) := []

/-- The hooks of a departure with its record. -/
def Departure.told (d : Departure) : List (RemovalHook × RemovedWorker) :=
  d.hooks.map fun h => (h, d.removed)

/-- Carries out an operation. -/
def perform (p : Pool) (c : Catalog) : Operation → Outcome
  | .add key offered adaptor =>
    let (v, p) := p.add key offered adaptor
    ⟨.view v, p, c, []⟩
  | .reduce key amount =>
    match p.reduce key amount with
    | (.ok v, p) => ⟨.view v, p, c, []⟩
    | (.error f, p) => ⟨.refused f, p, c, []⟩
  | .remove key hook =>
    match p.requestRemoval? c key hook with
    | none => ⟨.refused (.unknownResource key.text), p, c, []⟩
    | some (.left d) => ⟨.removal (.removed d.removed), d.pool, d.catalog, d.told⟩
    | some (.draining n p) => ⟨.removal (.draining n), p, c, []⟩
  | .lose key =>
    match p.lose? c key with
    | none => ⟨.refused (.unknownResource key.text), p, c, []⟩
    | some d => ⟨.lost ⟨d.bound, d.removed⟩, d.pool, d.catalog, d.told⟩
  | .look key => ⟨.seen (p.view? key), p, c, []⟩

end Pool

end TaskGrid
