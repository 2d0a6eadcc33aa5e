import TaskGrid.Worker.Basic
import TaskGrid.Action.Basic

/-!
# Requests to the agent

What applications and the managers of nodes ask of the agent.  A request that names an application
is about the nodes of that application; without one it is about the permanent pool.
-/

namespace TaskGrid

/-- A node that offers capacity. -/
structure Offer where
  /-- The name of the worker and of its host. -/
  name : String
  /-- What it offers. -/
  description : Capacity := .empty
  /-- How it is reached. -/
  adaptor : Adaptor := .named ""
  deriving DecidableEq

/-- A request to use less of a node. -/
structure ReduceRequest where
  /-- The name of the worker. -/
  name : String
  /-- What is no longer used. -/
  reduction : Capacity
  /-- The application that owns the node. -/
  app : Option ApplicationId := none
  deriving DecidableEq

/-- A request about a whole node. -/
structure NodeRequest where
  /-- The name of the worker. -/
  name : String
  /-- The application that owns the node. -/
  app : Option ApplicationId := none
  deriving DecidableEq

/-- A place from which a datum can be taken over. -/
inductive RemoteSource where
  /-- A replica; with an offer, its host joins the permanent pool if it is not there. -/
  | location (replica : Replica) (host : Option Offer)
  /-- A datum that is known here by another name. -/
  | localAlias (name : String)
  deriving DecidableEq

/-- A request to take over a datum that was produced elsewhere. -/
structure RemoteData where
  /-- The name by which the datum is known here. -/
  name : String
  /-- Where it can be taken from. -/
  sources : List RemoteSource
  deriving DecidableEq

/-- A request to run one task as an application of its own. -/
structure TaskRequest where
  /-- The task. -/
  submission : Submission
  /-- The nodes that this application alone may use. -/
  resources : List Offer := []
  /-- The data to take over first. -/
  remoteData : List RemoteData := []
  deriving DecidableEq

/-- A summary of the agent. -/
structure AgentStatus where
  /-- The number of registered workers. -/
  workers : Nat
  /-- The number of live actions. -/
  liveActions : Nat
  /-- The number of ready actions. -/
  readyActions : Nat
  /-- The number of open sessions. -/
  sessions : Nat
  /-- The name of the policy. -/
  policy : String
  deriving DecidableEq

end TaskGrid
