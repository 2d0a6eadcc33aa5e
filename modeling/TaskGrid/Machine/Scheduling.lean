import TaskGrid.Machine.Telling

/-!
# Actions and workers

The items by which actions are submitted, bound and ended, and by which workers offer capacity
and leave.  Whatever frees capacity for waiting actions is followed by a pass.
-/

namespace TaskGrid.World

/-! ## Passes -/

/-- Runs a scheduling pass. -/
def runPass (w : World) (token : Option Nat) : Effect :=
  let p := (Pass.start w.schedule w.pool w.catalog w.disturbances w.scored).run w.policy
  ({ w with
      schedule := p.schedule
      pool := p.pool
      catalog := p.catalog
      disturbances := p.disturbances
      scored := p.scored },
    p.incidents.map .ofIncident ++ Item.ofOutbox p.outbox ++
      token.toList.map fun t => .reply t (.assignments p.outbox.assignments))

/-- Wakes the actions that wait for a name; if one became ready, a pass follows. -/
def wake (w : World) (name : String) : Effect :=
  let (schedule, outbox) := w.schedule.wake name
  let w' := { w with schedule }
  if schedule.ready = w.schedule.ready then (w', []) else (w', Item.ofOutbox outbox ++ [.pass none])

/-! ## Actions -/

/-- Accepts a submission.  Returns the identifier of the action. -/
def submit (w : World) (task : Submission) (monitor : Monitor) : Nat × Effect :=
  let (id, schedule, outbox) := w.schedule.accept w.catalog task monitor
  (id, { w with schedule }, Item.ofOutbox outbox ++ [.pass none])

/-- A live action ends.  Values that it produced are registered before its end is told. -/
def conclude (w : World) (x : Entry) (values : List ProducedValue) (events : List Event)
    (last : ActionState) : Effect :=
  let (schedule, pool, outbox) := w.schedule.conclude w.pool x events last
  ({ w with schedule, pool },
    values.map (fun v => .addReplica v.name v.location none) ++ Item.ofOutbox outbox ++
      [.pass none])

/-- A bound action finished. -/
def complete (w : World) (token id : Nat) (values : List ProducedValue) : Effect :=
  match w.schedule.actions.get? id with
  | none => (w, [.reply token (.refused (.unknownAction id))])
  | some x =>
    if x.state.holdsCapacity then
      let (w, items) := w.conclude x values (values.map (.valueProduced id) ++ [.completed id])
        .completed
      (w, items ++ [.reply token .done])
    else (w, [.reply token (.refused (.unknownAction id))])

/-- A live action failed. -/
def fail (w : World) (token id : Nat) (reason : FailureReason) : Effect :=
  match w.schedule.actions.get? id with
  | none => (w, [.reply token (.refused (.unknownAction id))])
  | some x =>
    let (w, items) := w.conclude x [] [.failed id reason] (.failed reason)
    (w, items ++ [.reply token .done])

/-- A live action is cancelled; one that is remembered to have ended stays as it is. -/
def cancel (w : World) (token id : Nat) : Effect :=
  match w.schedule.actions.get? id with
  | none =>
    (w, [.reply token
      (if (w.schedule.ended? id).isSome then .flag false else .refused (.unknownAction id))])
  | some x =>
    let (w, items) := w.conclude x [] [.cancelled id] .cancelled
    (w, items ++ [.reply token (.flag true)])

/-- A bound action is being executed. -/
def markRunning (w : World) (token id : Nat) : Effect :=
  match w.schedule.markRunning? id with
  | none => (w, [.reply token (.refused (.unknownAction id))])
  | some schedule => ({ w with schedule }, [.reply token .done])

/-! ## Capacity -/

/-- Offers capacity under a key.  Returns the view of the worker before the pass that follows. -/
def addWorker (w : World) (key : WorkerKey) (offered : Capacity) (adaptor : Adaptor) :
    WorkerView × Effect :=
  let (v, pool) := w.pool.add key offered adaptor
  (v, { w with pool }, [.tellCapacity v.key v.free, .pass none])

/-- Withdraws free capacity of a worker. -/
def reduceWorker (w : World) (token : Nat) (key : WorkerKey) (reduction : Capacity) : Effect :=
  match w.pool.reduce key reduction with
  | (.error f, pool) => ({ w with pool }, [.reply token (.refused f)])
  | (.ok v, pool) =>
    ({ w with pool }, [.tellCapacity key v.free, .reply token (.pool (.view v))])

/-! ## Workers leaving -/

/-- The world after a departure, and the items that every departure leads to. -/
def depart (w : World) (d : Pool.Departure) : Effect :=
  ({ w with pool := d.pool, catalog := d.catalog }, Item.ofHooks d)

/-- Asks a worker to leave.  Returns what becomes of it, if it is registered. -/
def removeWorker (w : World) (key : WorkerKey) (hook : Option RemovalHook) :
    Option RemovalStatus × Effect :=
  match w.pool.requestRemoval? w.catalog key hook with
  | none => (none, w, [])
  | some (.draining n pool) => (some (.draining n), { w with pool }, [])
  | some (.left d) =>
    let (w, items) := w.depart d
    (some (.removed d.removed), w,
      items ++ [.tellCapacity key .empty, .tellRemoved d.removed false])

/-- Asks a worker to leave and answers the command. -/
def answerRemoval (w : World) (token : Nat) (key : WorkerKey) (hook : Option RemovalHook) :
    Effect :=
  match w.removeWorker key hook with
  | (none, w, items) => (w, items ++ [.reply token (.refused (.unknownResource key.text))])
  | (some s, w, items) => (w, items ++ [.reply token (.pool (.removal s))])

/-- A drained worker leaves, if it is still there. -/
def retire (w : World) (key : WorkerKey) (seq : Nat) : Effect :=
  match w.pool.retire? w.catalog key seq with
  | none => (w, [])
  | some d =>
    let (w, items) := w.depart d
    (w, items ++ [.tellCapacity key .empty, .tellRemoved d.removed true])

/-- The actions that were bound to a lost worker fail. -/
def failBound (w : World) (key : WorkerKey) (ids : List Nat) : Effect :=
  let (schedule, outbox) := w.schedule.abandon key ids
  ({ w with schedule },
    Item.ofOutbox { outbox with capacity := outbox.capacity ++ [(key, .empty)] })

/-- A worker is lost.  If the agent gave it up, the agent also sees to its rescues. -/
def loseWorker (w : World) (token : Nat) (key : WorkerKey) (byAgent : Bool) : Effect :=
  match w.pool.lose? w.catalog key with
  | none => (w, [.reply token (.refused (.unknownResource key.text))])
  | some d =>
    let (w, items) := w.depart d
    let rescues := d.removed.rescues
    (w, items ++ [.failBound key d.bound, .tellRemoved d.removed false] ++
      (if byAgent && !rescues.isEmpty then [.handOver rescues] else []) ++
      [.reply token (.pool (.lost ⟨d.bound, d.removed⟩))])

/-- Changes the pool alone. -/
def changePool (w : World) (token : Nat) (o : Pool.Operation) : Effect :=
  let r := w.pool.perform w.catalog o
  let answer := match r.answer with
    | .refused f => .refused f
    | a => .pool a
  ({ w with pool := r.pool, catalog := r.catalog },
    r.told.map (fun t => .tellHook t.1 t.2) ++ [.reply token answer])

end TaskGrid.World
