import TaskGrid.Action.Event
import TaskGrid.Wire.Capacity
import TaskGrid.Wire.Data
import TaskGrid.Wire.Worker

/-!
# Actions and events, written

States and reasons are written by name, or as an object of one field where they carry something.
Events are objects that name their kind in the field `event`.
-/

namespace TaskGrid.Wire

instance : Wire Implementation where
  encode i := .obj [("requirement", encode i.requirement), ("handler", encode i.handler)]
  decode known := Json.record? { names := ["requirement", "handler"] } fun j => do
    return ⟨← field known j "requirement", ← field known j "handler"⟩

/-- Priorities have 32 bits. -/
def priorityOr (j : Json) (name : String) : Option Int := j.defaulted? name 0 (Json.integer? 32)

instance : Wire Submission where
  encode s := .obj
    [("implementations", encode s.implementations), ("dependencies", encode s.dependencies),
      ("outputs", encode s.outputs), ("priority", .int s.priority),
      ("group_priority", .int s.groupPriority)]
  decode known := Json.record?
      { names := ["implementations", "dependencies", "outputs", "priority", "group_priority"],
        omittable := 4 } fun j => do
    return {
      implementations := ← field known j "implementations"
      dependencies := ← fieldOr known j "dependencies" []
      outputs := ← fieldOr known j "outputs" []
      priority := ← priorityOr j "priority"
      groupPriority := ← priorityOr j "group_priority" }

instance : Wire FailureReason where
  encode
    | .nodeLost => .str "node_lost"
    | .execution m => .obj [("execution", .str m)]
  decode _
    | .str "node_lost" => some .nodeLost
    | .obj [("node_lost", .null)] => some .nodeLost
    | .obj [("execution", .str m)] => some (.execution m)
    | _ => none

/-- The state of a name, among those that carry nothing. -/
def plainState? : String → Option ActionState
  | "blocked" => some .blocked
  | "ready" => some .ready
  | "assigned" => some .assigned
  | "running" => some .running
  | "completed" => some .completed
  | "cancelled" => some .cancelled
  | _ => none

instance : Wire ActionState where
  encode
    | .blocked => .str "blocked"
    | .ready => .str "ready"
    | .assigned => .str "assigned"
    | .running => .str "running"
    | .completed => .str "completed"
    | .cancelled => .str "cancelled"
    | .failed r => .obj [("failed", encode r)]
  decode known
    | .str s => plainState? s
    | .obj [("failed", r)] => (decode known r).map .failed
    | .obj [(s, .null)] => plainState? s
    | _ => none

/-- The fields of a produced value. -/
def valueFields (v : ProducedValue) : List (String × Json) :=
  [("name", encode v.name), ("data_type", encode v.dataType), ("location", encode v.location)]

instance : Wire ProducedValue where
  encode v := .obj (valueFields v)
  decode known := Json.record? { names := ["name", "data_type", "location"] } fun j => do
    return ⟨← field known j "name", ← field known j "data_type", ← field known j "location"⟩

/-- The fields of an event beside its kind and action. -/
def eventFields : Event → List (String × Json)
  | .assigned _ w i => [("worker", encode w), ("implementation", encode i)]
  | .valueProduced _ v => valueFields v
  | .failed _ r => [("reason", encode r)]
  | _ => []

/-- The fields of a kind of event beside its kind and action. -/
def fieldNames : Event.Kind → List String
  | .assigned => ["worker", "implementation"]
  | .valueProduced => ["name", "data_type", "location"]
  | .failed => ["reason"]
  | _ => []

/-- The fields of a kind of event. -/
def eventShape (kind : String) : Option Json.Shape :=
  (Event.Kind.ofName? kind).map fun k => { names := "event" :: "action" :: fieldNames k }

instance : Wire Event where
  encode e := .obj
    (("event", .str e.kind.name) :: ("action", encode e.action) :: eventFields e)
  decode known := Json.variant? eventShape fun j => do
    let kind ← (← j.required? "event" Json.string?) |> Event.Kind.ofName?
    let action : Nat ← field known j "action"
    match kind with
    | .created => return .created action
    | .ready => return .ready action
    | .assigned =>
      return .assigned action (← field known j "worker") (← field known j "implementation")
    | .valueProduced => return .valueProduced action (← decode known j)
    | .noEligibleResource => return .noEligibleResource action
    | .completed => return .completed action
    | .failed => return .failed action (← field known j "reason")
    | .cancelled => return .cancelled action

end TaskGrid.Wire
