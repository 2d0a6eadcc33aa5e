import TaskGrid.Agent.Request
import TaskGrid.Schedule.Table
import TaskGrid.Settings.Document
import TaskGrid.Wire.Action

/-!
# Requests, assignments and settings, written
-/

namespace TaskGrid.Wire

instance : Wire Assignment where
  encode a := .obj
    [("action", encode a.action), ("worker", encode a.worker),
      ("implementation", encode a.implementation), ("handler", encode a.handler),
      ("requirement", encode a.requirement)]
  decode known := Json.record?
      { names := ["action", "worker", "implementation", "handler", "requirement"] } fun j => do
    return {
      action := ← field known j "action"
      worker := ← field known j "worker"
      implementation := ← field known j "implementation"
      handler := ← field known j "handler"
      requirement := ← field known j "requirement" }

instance : Wire Offer where
  encode o := .obj
    [("name", encode o.name), ("description", encode o.description), ("adaptor", encode o.adaptor)]
  decode known := Json.record?
      { names := ["name", "description", "adaptor"], omittable := 2 } fun j => do
    return {
      name := ← field known j "name"
      description := ← fieldOr known j "description" .empty
      adaptor := ← fieldOr known j "adaptor" (.named "") }

instance : Wire ReduceRequest where
  encode r := .obj
    [("name", encode r.name), ("reduction", encode r.reduction), ("app", encode r.app)]
  decode known := Json.record? { names := ["name", "reduction", "app"], omittable := 1 } fun j => do
    return ⟨← field known j "name", ← field known j "reduction", ← fieldOption known j "app"⟩

instance : Wire NodeRequest where
  encode r := .obj [("name", encode r.name), ("app", encode r.app)]
  decode known := Json.record? { names := ["name", "app"], omittable := 1 } fun j => do
    return ⟨← field known j "name", ← fieldOption known j "app"⟩

/-- The fields of a kind of source. -/
def sourceShape : String → Option Json.Shape
  | "location" => some { names := ["kind", "location", "resource"], omittable := 1 }
  | "local_alias" => some { names := ["kind", "name"] }
  | _ => none

instance : Wire RemoteSource where
  encode
    | .location r host =>
      .obj [("kind", .str "location"), ("location", encode r), ("resource", encode host)]
    | .localAlias name => .obj [("kind", .str "local_alias"), ("name", encode name)]
  decode known := Json.variant? sourceShape fun j => do
    match ← j.required? "kind" Json.string? with
    | "location" =>
      return .location (← field known j "location") (← fieldOption known j "resource")
    | "local_alias" => return .localAlias (← field known j "name")
    | _ => none

instance : Wire RemoteData where
  encode r := .obj [("renaming", encode r.name), ("sources", encode r.sources)]
  decode known := Json.record? { names := ["renaming", "sources"] } fun j => do
    return ⟨← field known j "renaming", ← field known j "sources"⟩

instance : Wire TaskRequest where
  encode r := .obj
    [("submission", encode r.submission), ("resources", encode r.resources),
      ("remote_data", encode r.remoteData)]
  decode known := Json.record?
      { names := ["submission", "resources", "remote_data"], omittable := 2 } fun j => do
    return {
      submission := ← field known j "submission"
      resources := ← fieldOr known j "resources" []
      remoteData := ← fieldOr known j "remote_data" [] }

instance : Wire AgentStatus where
  encode s := .obj
    [("workers", encode s.workers), ("live_actions", encode s.liveActions),
      ("ready_actions", encode s.readyActions), ("sessions", encode s.sessions),
      ("policy", encode s.policy)]
  decode known := Json.record?
      { names := ["workers", "live_actions", "ready_actions", "sessions", "policy"] } fun j => do
    return {
      workers := ← field known j "workers"
      liveActions := ← field known j "live_actions"
      readyActions := ← field known j "ready_actions"
      sessions := ← field known j "sessions"
      policy := ← field known j "policy" }

instance : Wire Settings where
  encode s := .obj
    [("policy", .str s.policy.name), ("local_node", encode s.localNode),
      ("withhold_master_unit", encode s.withholds), ("history_limit", encode s.historyLimit)]
  decode _ := Settings.ofRecord?

end TaskGrid.Wire
