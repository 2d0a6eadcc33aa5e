import TaskGrid.Machine.Data
import TaskGrid.Machine.Scheduling

/-!
# Applications

The items by which sessions open and close, nodes join them, and a task is run as an application
of its own: its nodes are registered, then its data are taken over, then it is submitted.  If any
of that is refused the session closes again.
-/

namespace TaskGrid.World

/-! ## Sessions -/

/-- Opens a session. -/
def startSession (w : World) (s : Sessions) (monitor : Monitor) : ApplicationId × World :=
  let app := ApplicationId.issued (w.opened + 1)
  (app, { w with opened := w.opened + 1, agent := some (s.start app monitor) })

/-- The main action of an application has ended; its session closes the first time. -/
def closeSession (w : World) (app : ApplicationId) : Effect :=
  if app ∈ w.ended then (w, []) else ({ w with ended := app :: w.ended }, [.endSession app])

/-- Closes a session, if it is open, and releases its nodes. -/
def endSession (w : World) (app : ApplicationId) : Effect :=
  match w.agent.bind (·.finish? app) with
  | none => (w, [])
  | some (nodes, s) => ({ w with agent := some s }, nodes.map .releaseNode)

/-- Asks a node of a closed session to leave. -/
def releaseNode (w : World) (key : WorkerKey) : Effect := (w.removeWorker key (some .agent)).2

/-! ## Going on -/

/-- A step towards running an application, or towards an answer, was refused. -/
def refuse (f : Fault) : Resume → List Item
  | .answer token => [.reply token (.refused f)]
  | .prepare p => [.endSession p.app, .reply p.token (.refused f)]

/-- A step towards running an application, or towards an answer, was made. -/
def resume (r : Reply) : Resume → List Item
  | .answer token => [.reply token r]
  | .prepare p => [.prepare p]

/-! ## Nodes -/

/-- Registers an offered node; a node of an application is then recorded in its session. -/
def offer (w : World) (o : Offer) (app : Option ApplicationId) (next : Resume) : Effect :=
  match w.sessions.keyFor o.name app with
  | .error f => (w, refuse f next)
  | .ok key =>
    let (v, w, items) := w.addWorker key o.description o.adaptor
    match app with
    | none => (w, items ++ resume (.pool (.view v)) next)
    | some app => (w, items ++ [.joinNode app v next])

/-- Records a registered node in the session of its application. -/
def joinNode (w : World) (app : ApplicationId) (v : WorkerView) (next : Resume) : Effect :=
  match w.sessions.addNode app v.key with
  | .error f => (w, refuse f next)
  | .ok s => ({ w with agent := w.agent.map fun _ => s }, resume (.pool (.view v)) next)

/-! ## Data from elsewhere -/

/-- Looks at the next source of a datum; when there is no other, links the name if it is new here
and another name was found, and adds the replicas. -/
def takeOver (w : World) (i : Import) : Effect :=
  match i.sources with
  | .localAlias name :: rest =>
    let i := { i with sources := rest }
    if w.catalog.isRegistered name then
      (w, [.takeOver { i with found := i.found + 1, otherName := some name }])
    else (w, [.takeOver i])
  | .location r host :: rest =>
    let next : Item := .takeOver { i with sources := rest, replicas := i.replicas ++ [r] }
    match host with
    | none => (w, [next])
    | some o =>
      let key := WorkerKey.permanent o.name
      if (w.pool.worker? key).isSome then (w, [next])
      else
        let (_, w, items) := w.addWorker key o.description o.adaptor
        (w, items ++ [next])
  | [] =>
    let linked :=
      if w.catalog.isRegistered i.name then none else i.otherName.bind (w.catalog.link? i.name)
    let adding := i.replicas.map fun r => Item.addReplica i.name r none
    let done := Item.takenOver i.name (i.found + i.replicas.length) i.resume
    match linked with
    | none => (w, adding ++ [done])
    | some l =>
      ({ w with catalog := l.catalog }, w.announcements l.announced ++ adding ++ [done])

/-- A datum was taken over, unless there was no source. -/
def takenOver (w : World) (name : String) (sources : Nat) (next : Resume) : Effect :=
  (w, if sources = 0 then refuse (.noDataSources name) next else resume (.number sources) next)

/-- Begins to take over a datum. -/
def beginTakeOver (r : RemoteData) (next : Resume) : Item :=
  .takeOver { name := r.name, sources := r.sources, resume := next }

/-! ## Running a task -/

/-- Goes on preparing a task: the next node, else the next datum, else its submission.  Nodes
without a primary unit are left out. -/
def prepare (w : World) (p : Preparation) : Effect :=
  match p.offers, p.imports with
  | o :: rest, _ =>
    let next := { p with offers := rest }
    if o.description.get .primary = 0 then (w, [.prepare next])
    else w.offer o (some p.app) (.prepare next)
  | [], r :: rest => (w, [beginTakeOver r (.prepare { p with imports := rest })])
  | [], [] =>
    let (id, w, items) := w.submit p.submission (.session p.app p.monitor)
    (w, items ++ [.reply p.token (.started p.app id)])

/-- Runs a task as an application of its own. -/
def runTask (w : World) (s : Sessions) (token : Nat) (r : TaskRequest) (monitor : Monitor) :
    Effect :=
  let (app, w) := w.startSession s monitor
  (w, [.prepare
    { token, app, offers := r.resources, imports := r.remoteData, submission := r.submission,
      monitor }])

end TaskGrid.World
