import TaskGrid.Fault
import TaskGrid.Observer.Monitor
import TaskGrid.Sorted.Map
import TaskGrid.Sorted.Set

/-!
# Sessions

A session is open while its application runs.  It knows who is told about the application and
which nodes were registered for it alone; closing it hands the nodes back.
-/

namespace TaskGrid

/-- An open session. -/
structure Session where
  /-- Who is told about the application. -/
  monitor : Monitor
  /-- The nodes registered for the application. -/
  nodes : SortedSet WorkerKey := .empty
  deriving DecidableEq

/-- The open sessions. -/
structure Sessions where
  /-- Each open session under its application. -/
  live : SortedMap ApplicationId Session := .empty
  deriving DecidableEq

namespace Sessions

instance : Inhabited Sessions := ⟨{}⟩

/-- The fault of an application without an open session. -/
def unknown (app : ApplicationId) : Fault := .unknownApplication app.text

/-- Whether the session of an application is open. -/
def isOpen (s : Sessions) (app : ApplicationId) : Bool := s.live.contains app

/-- The number of open sessions. -/
def size (s : Sessions) : Nat := s.live.size

/-- The sessions with one more. -/
def start (s : Sessions) (app : ApplicationId) (monitor : Monitor) : Sessions :=
  ⟨s.live.insert app { monitor }⟩

/-- Refuses an application without an open session. -/
def ensure (s : Sessions) (app : ApplicationId) : Except Fault Unit :=
  if s.isOpen app then .ok () else .error (unknown app)

/-- Who is told about an application. -/
def monitorOf (s : Sessions) (app : ApplicationId) : Except Fault Monitor :=
  match s.live.get? app with
  | some x => .ok x.monitor
  | none => .error (unknown app)

/-- The nodes of an application, in order. -/
def nodesOf (s : Sessions) (app : ApplicationId) : Except Fault (List WorkerKey) :=
  match s.live.get? app with
  | some x => .ok x.nodes.toList
  | none => .error (unknown app)

/-- The sessions with a node recorded for an application. -/
def addNode (s : Sessions) (app : ApplicationId) (key : WorkerKey) : Except Fault Sessions :=
  match s.live.get? app with
  | some x => .ok ⟨s.live.insert app { x with nodes := x.nodes.insert key }⟩
  | none => .error (unknown app)

/-- Closes a session and hands its nodes back, in order. -/
def finish? (s : Sessions) (app : ApplicationId) : Option (List WorkerKey × Sessions) :=
  (s.live.get? app).map fun x => (x.nodes.toList, ⟨s.live.erase app⟩)

/-- The key of a node: of an application with an open session, or of the permanent pool. -/
def keyFor (s : Sessions) (name : String) : Option ApplicationId → Except Fault WorkerKey
  | none => .ok (.permanent name)
  | some app => (s.ensure app).map fun _ => .within name app

end Sessions

end TaskGrid
