import TaskGrid.Machine.Applications

/-!
# Carrying out commands

What each command does to the world, and the items that it leads to.  The last of them is always
the answer.
-/

namespace TaskGrid.World

/-- A command that asks for the agent; without one the answer says so. -/
def withAgent (w : World) (token : Nat) (f : Sessions → Effect) : Effect :=
  match w.agent with
  | none => (w, [.reply token .noAgent])
  | some s => f s

/-- A command about a node, whose key the agent knows. -/
def withNode (w : World) (token : Nat) (name : String) (app : Option ApplicationId)
    (f : WorkerKey → Effect) : Effect :=
  w.withAgent token fun s =>
    match s.keyFor name app with
    | .error fault => (w, [.reply token (.refused fault)])
    | .ok key => f key

/-- The effect of a change that needs no further items. -/
def changed (w : World) (token : Nat) (r : Reply := .done) : Effect := (w, [.reply token r])

/-- Carries out a command about data. -/
def obeyData (w : World) (token : Nat) : Command → Option Effect
  | .register name =>
    some (changed { w with catalog := w.catalog.register name } token
      (.name (w.catalog.canonicalOf name)))
  | .link name existing => some (w.link token name existing)
  | .addReplica name r => some (w.addReplica name r (some token))
  | .mount disk host point =>
    some (changed { w with catalog := w.catalog.mount disk host point } token)
  | .unmountHost host =>
    some (changed { w with catalog := w.catalog.unmountHost host } token
      (.names (w.catalog.mounts.disksOf host)))
  | .startCopy name target listener => some (w.startCopy token name target listener)
  | .listenToCopy id data listener => some (w.listenToCopy token id data listener)
  | .finishCopy id data => some (w.finishCopy token id data)
  | .failCopy id data reason => some (w.failCopy token id data reason)
  | .removeHost name host =>
    let (source, catalog) := w.catalog.removeHost name host
    some (changed { w with catalog } token (.replica source))
  | .markObsolete name =>
    match w.catalog.markObsolete? name with
    | none => some (w.changed token (.flag false))
    | some catalog => some (changed { w with catalog } token (.flag true))
  | .takeObsolete host =>
    let (names, catalog) := w.catalog.takeObsolete host
    some (changed { w with catalog } token (.names names))
  | .forgetHost host => some (changed { w with catalog := w.catalog.forgetHost host } token)
  | .setInMemory name b =>
    some (changed { w with catalog := w.catalog.setInMemory name b } token)
  | .setSize name n => some (changed { w with catalog := w.catalog.setSize name n } token)
  | .subscribe label =>
    some (changed { w with subscribers := w.subscribers.erase label ++ [label] } token)
  | .unsubscribe label =>
    some (changed { w with subscribers := w.subscribers.erase label } token
      (.flag (w.subscribers.contains label)))
  | .rescue orders transfer => some (w, [.rescue { transfer, orders, ending := .answer token }])
  | _ => none

/-- Carries out a command to the agent. -/
def obeyAgent (w : World) (token : Nat) : Command → Option Effect
  | .offerNode o app => some (w.withAgent token fun _ => w.offer o app (.answer token))
  | .reduceNode r =>
    some (w.withNode token r.name r.app fun key => w.reduceWorker token key r.reduction)
  | .removeNode r =>
    some (w.withNode token r.name r.app fun key => w.answerRemoval token key (some .agent))
  | .loseNode r => some (w.withNode token r.name r.app fun key => w.loseWorker token key true)
  | .importData r => some (w.withAgent token fun _ => (w, [beginTakeOver r (.answer token)]))
  | .runTask r monitor => some (w.withAgent token fun s => w.runTask s token r monitor)
  | .finishApplication app =>
    some (w.withAgent token fun s =>
      match s.ensure app with
      | .error f => w.changed token (.refused f)
      | .ok _ => (w, [.endSession app, .reply token .done]))
  | .noteRescues => some (w.withAgent token fun _ => changed { w with sink := some .noting } token)
  | .dispatchRescues transfer deferred reports =>
    some (w.withAgent token fun _ => (w.setDispatcher transfer deferred reports).changed token)
  | .startSession monitor =>
    some (w.withAgent token fun s =>
      let (app, w) := w.startSession s monitor
      w.changed token (.app app))
  | .addSessionNode app key =>
    some (w.withAgent token fun s =>
      match s.addNode app key with
      | .error f => w.changed token (.refused f)
      | .ok s => changed { w with agent := some s } token)
  | .finishSession app =>
    some (w.withAgent token fun s =>
      match s.finish? app with
      | none => w.changed token (.nodes none)
      | some (nodes, s) => changed { w with agent := some s } token (.nodes (some nodes)))
  | .tellSession app e =>
    some (w.withAgent token fun s =>
      match s.monitorOf app with
      | .error f => w.changed token (.refused f)
      | .ok m => (w, [.deliver m e, .reply token .done]))
  | _ => none

/-- Carries out a command. -/
def obey (w : World) (token : Nat) (c : Command) : Effect :=
  match c with
  | .addWorker key offered adaptor =>
    let (v, w, items) := w.addWorker key offered adaptor
    (w, items ++ [.reply token (.pool (.view v))])
  | .reduceWorker key reduction => w.reduceWorker token key reduction
  | .removeWorker key hook => w.answerRemoval token key hook
  | .loseWorker key => w.loseWorker token key false
  | .submit task monitor =>
    let (id, w, items) := w.submit task monitor
    (w, items ++ [.reply token (.number id)])
  | .pass => w.runPass (some token)
  | .markRunning id => w.markRunning token id
  | .complete id outputs => w.complete token id outputs
  | .fail id reason => w.fail token id reason
  | .cancel id => w.cancel token id
  | .setListener l => changed { w with listener := some l } token
  | .pool o => w.changePool token o
  | .dispatch orders =>
    if w.sink.isSome then (w, [.handOver orders, .reply token .done]) else w.changed token .noSink
  | .runDeferred => (w, [.runDeferred, .reply token .done])
  | .collectReports =>
    match w.reports with
    | none => w.changed token (.reports none)
    | some (channel, waiting) =>
      changed { w with reports := some (channel, []) } token (.reports (some waiting))
  | .dropReports => changed { w with reports := none } token
  | .dismissAgent => changed { w with agent := none } token
  | .collectMail id =>
    if id ∈ w.closedMailboxes then w.changed token (.mail none)
    else
      changed { w with mailboxes := w.mailboxes.erase id } token
        (.mail (some ((w.mailboxes.get? id).getD [])))
  | .closeMailbox id =>
    changed { w with closedMailboxes := w.closedMailboxes.insert id } token
  | c => ((w.obeyData token c).or (w.obeyAgent token c)).getD (w.changed token)

end TaskGrid.World
