import TaskGrid.Machine.Item

/-!
# Telling observers

What monitors, the listener and hooks are told, and what follows from it.
-/

namespace TaskGrid.World

/-- The outcome of an item: the world afterwards and the items to carry out next. -/
abbrev Effect := World × List Item

/-- Tells a monitor an event.  A client may answer; a session passes the event on and, if it is
terminal, closes. -/
def deliver (w : World) (m : Monitor) (e : Event) : Effect :=
  let w := w.note (.delivered m e)
  match m with
  | .silent => (w, [])
  | .client id _ => (w, [.prompt (.event id e)])
  | .recorder label limit =>
    let held := Monitor.record limit ((w.recorders.get? label).getD []) e
    ({ w with recorders := w.recorders.insert label held }, [])
  | .mailbox id =>
    if id ∈ w.closedMailboxes then (w, [])
    else
      ({ w with mailboxes := w.mailboxes.insert id ((w.mailboxes.get? id).getD [] ++ [e]) }, [])
  | .session app inner =>
    (w, .deliver inner e :: if e.isTerminal then [.closeSession app] else [])

/-- Tells the listener bindings and free capacities. -/
def report (w : World) (assignments : List Assignment) (capacity : List (WorkerKey × Capacity)) :
    World :=
  match w.listener with
  | none => w
  | some l =>
    let w := w.noteAll (assignments.map .assigned)
    if l.quiet then w else w.noteAll (capacity.map fun x => .capacity x.1 x.2)

/-- Tells the listener what is free on a worker. -/
def tellCapacity (w : World) (key : WorkerKey) (free : Capacity) : World :=
  w.report [] [(key, free)]

/-- Tells the listener that a worker left.  If nobody else sees to its rescues and the listener
does not take them over, each of them is an alarm. -/
def tellRemoved (w : World) (r : RemovedWorker) (last : Bool) : World :=
  let heard := w.listener.any fun l => !l.quiet
  let taken := w.listener.any fun l => !l.quiet && l.claims
  let w := if heard then w.note (.removed r) else w
  if last && !r.claimed && !taken then
    w.noteAll (r.rescues.map fun o => .alarm (.unclaimedRescue r.key.text o))
  else w

/-- Tells a hook that a worker left.  The agent sees to the rescues of a worker that was
drained. -/
def tellHook (w : World) (hook : RemovalHook) (r : RemovedWorker) : Effect :=
  let w := w.note (.hooked hook r)
  match hook with
  | .caller _ => (w, [])
  | .agent =>
    if w.agent.isSome && !r.forced && !r.rescues.isEmpty then (w, [.handOver r.rescues])
    else (w, [])

/-- The announcements of names: every subscriber is told every name, the scheduler first. -/
def announcements (w : World) (names : List String) : List Item :=
  names.map .wake ++
    w.subscribers.flatMap fun label => names.map fun name => .note (.available name label)

end TaskGrid.World
