import TaskGrid.Fault
import TaskGrid.Pool.HostName
import TaskGrid.Worker.Basic

/-!
# The pool of workers

The pool registers workers and accounts for their capacity.  Offering capacity under a key that is
not registered creates the worker; later offers under the key add to it.  A worker leaves either
gracefully, once it is drained, or at once when it is lost; if it was the last of its host, the
data of the host depart with it.

## Main definitions

* `Pool.add`, `Pool.reduce`: capacity offered and withdrawn.
* `Pool.reserve?`, `Pool.release?`: capacity bound to actions.
* `Pool.retire?`, `Pool.requestRemoval?`, `Pool.lose?`: workers leaving.
-/

namespace TaskGrid

/-- The registered workers. -/
structure Pool where
  /-- Each worker under its key. -/
  workers : SortedMap WorkerKey Worker := .empty
  /-- How many workers were ever registered. -/
  nextSeq : Nat := 0
  /-- The names of the orchestration node. -/
  localNodes : List String := []
  /-- Whether the orchestration node keeps a unit for itself. -/
  withholds : Bool := true
  deriving DecidableEq

namespace Pool

instance : Inhabited Pool := ⟨{}⟩

/-- Whether a name is that of the orchestration node. -/
def isLocal (p : Pool) (name : String) : Bool :=
  let host := HostName.ofName name
  name == "localhost" || host == "localhost" || p.localNodes.any fun n => n == name || n == host

/-! ## Views -/

/-- The worker of a key. -/
def worker? (p : Pool) (key : WorkerKey) : Option Worker := p.workers.get? key

/-- The view of the worker of a key. -/
def view? (p : Pool) (key : WorkerKey) : Option WorkerView := (p.worker? key).map (·.view key)

/-- The views of all workers, in the order of their registration. -/
def views (p : Pool) : List WorkerView :=
  (p.workers.entries.map fun e => e.2.view e.1).mergeSort fun a b => a.seq ≤ b.seq

/-- The number of workers. -/
def size (p : Pool) : Nat := p.workers.size

/-- The keys of the workers of an application, in order. -/
def workersOf (p : Pool) (app : ApplicationId) : List WorkerKey :=
  p.workers.keys.filter fun k => k.scope = some app

/-- Whether a worker of a host is registered. -/
def serves (p : Pool) (host : String) : Bool := p.workers.keys.any fun k => k.name = host

/-! ## Capacity -/

/-- Offers capacity under a key.  A key that is not registered becomes a worker, reached as the
offer says; a registered worker stays reached as it was.  Returns the view of the worker. -/
def add (p : Pool) (key : WorkerKey) (offered : Capacity) (adaptor : Adaptor) : WorkerView × Pool :=
  let w := ((p.worker? key).getD { seq := p.nextSeq, adaptor }).offer
    (p.withholds && p.isLocal key.name) offered
  (w.view key, { p with
    workers := p.workers.insert key w
    nextSeq := if p.workers.contains key then p.nextSeq else p.nextSeq + 1 })

/-- Withdraws capacity that is free.  The second part is the pool afterwards, refused or not. -/
def reduce (p : Pool) (key : WorkerKey) (c : Capacity) : Except Fault WorkerView × Pool :=
  match p.worker? key with
  | none => (.error (.unknownResource key.text), p)
  | some w =>
    match w.free.subtract c with
    | .error s => (.error (.capacityUnderflow s), p)
    | .ok free =>
      match w.total.subtract c with
      | .error s =>
        (.error (.capacityUnderflow s), { p with workers := p.workers.insert key { w with free } })
      | .ok total =>
        let w := { w with free, total }
        (.ok (w.view key), { p with workers := p.workers.insert key w })

/-- Reserves what an action needs on a worker.  Returns what is then free there. -/
def reserve? (p : Pool) (key : WorkerKey) (action : Nat) (need : Capacity) :
    Option (Capacity × Pool) :=
  (p.worker? key).bind fun w => (w.reserve? action need).map fun w =>
    (w.free, { p with workers := p.workers.insert key w })

/-- The outcome of a release. -/
structure Released where
  /-- The pool afterwards. -/
  pool : Pool
  /-- What is then free on the worker. -/
  free : Capacity
  /-- The registration number of the worker, if it can now leave as it was asked to. -/
  drained : Option Nat

/-- Releases what an action holds on a worker; nothing happens where it holds nothing. -/
def release? (p : Pool) (key : WorkerKey) (action : Nat) : Option Released :=
  (p.worker? key).bind fun w => (w.release? action).map fun w =>
    { pool := { p with workers := p.workers.insert key w }
      free := w.free
      drained := if w.isDrained then some w.seq else none }

@[simp] theorem worker?_add_self (p : Pool) (key : WorkerKey) (c : Capacity) (a : Adaptor) :
    (p.add key c a).2.worker? key =
      some (((p.worker? key).getD { seq := p.nextSeq, adaptor := a }).offer
        (p.withholds && p.isLocal key.name) c) := SortedMap.get?_insert_self ..

theorem worker?_add_of_ne (p : Pool) {key k : WorkerKey} (c : Capacity) (a : Adaptor)
    (h : k ≠ key) : (p.add key c a).2.worker? k = p.worker? k := SortedMap.get?_insert_of_ne _ _ h

/-! ## Departures -/

/-- A worker that left: the record, who is told, and what pool and catalog are then. -/
structure Departure where
  /-- The record of the removal. -/
  removed : RemovedWorker
  /-- The actions that were bound. -/
  bound : List Nat
  /-- Who is told. -/
  hooks : List RemovalHook
  /-- The pool afterwards. -/
  pool : Pool
  /-- The catalog afterwards. -/
  catalog : Catalog

/-- What a departing host leaves to be saved, unless the pool still serves the host. -/
def departHost (p : Pool) (c : Catalog) (host : String) : List RescueOrder × Catalog :=
  if p.serves host then ([], c) else c.departHost host

/-- A registered worker leaves. -/
def depart (p : Pool) (c : Catalog) (key : WorkerKey) (w : Worker) (forced : Bool) : Departure :=
  let pool := { p with workers := p.workers.erase key }
  let (rescues, catalog) := pool.departHost c key.name
  { removed := ⟨key, w.total, rescues, forced, !w.hooks.isEmpty⟩
    bound := w.bound
    hooks := w.hooks
    pool
    catalog }

@[simp] theorem worker?_depart_self (p : Pool) (c : Catalog) (key : WorkerKey) (w : Worker)
    (forced : Bool) : (p.depart c key w forced).pool.worker? key = none :=
  SortedMap.get?_erase_self ..

theorem worker?_depart_of_ne (p : Pool) (c : Catalog) {key k : WorkerKey} (w : Worker)
    (forced : Bool) (h : k ≠ key) :
    (p.depart c key w forced).pool.worker? k = p.worker? k := SortedMap.get?_erase_of_ne _ h

/-- The worker registered as number `seq` leaves, if it is still there under its key. -/
def retire? (p : Pool) (c : Catalog) (key : WorkerKey) (seq : Nat) : Option Departure :=
  (p.worker? key).bind fun w => if w.seq = seq then some (p.depart c key w false) else none

/-- What became of a request to leave. -/
inductive Removal where
  /-- The worker left. -/
  | left (d : Departure)
  /-- The worker waits for this many actions; the pool is then as given. -/
  | draining (actions : Nat) (pool : Pool)

/-- Asks a worker to leave.  It accepts nothing more, and leaves now if nothing is bound to it. -/
def requestRemoval? (p : Pool) (c : Catalog) (key : WorkerKey) (hook : Option RemovalHook) :
    Option Removal :=
  (p.worker? key).map fun w =>
    let w := { w with removing := true, hooks := w.hooks ++ hook.toList }
    if w.reservations.isEmpty then .left (p.depart c key w false)
    else .draining w.reservations.size { p with workers := p.workers.insert key w }

/-- A worker is lost: it leaves without waiting for what is bound to it. -/
def lose? (p : Pool) (c : Catalog) (key : WorkerKey) : Option Departure :=
  (p.worker? key).map fun w => p.depart c key w true

end Pool

end TaskGrid
