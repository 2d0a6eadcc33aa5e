import TaskGrid.Catalog.Departure
import TaskGrid.Wire.Basic

/-!
# Data, written

Replicas are objects that name their kind in the field `type`.
-/

namespace TaskGrid.Wire

/-- The fields of a kind of replica. -/
def replicaShape : String → Option Json.Shape
  | "private" => some { names := ["type", "host", "path"] }
  | "shared" => some { names := ["type", "disk", "path"] }
  | "persistent" => some { names := ["type", "id"] }
  | "binding" => some { names := ["type", "host", "id"] }
  | _ => none

instance : Wire Replica where
  encode
    | .ownFile host path =>
      .obj [("type", .str "private"), ("host", .str host), ("path", .str path)]
    | .diskFile disk path =>
      .obj [("type", .str "shared"), ("disk", .str disk), ("path", .str path)]
    | .persistent id => .obj [("type", .str "persistent"), ("id", .str id)]
    | .binding host id => .obj [("type", .str "binding"), ("host", .str host), ("id", .str id)]
  decode known := Json.variant? replicaShape fun j => do
    match ← j.required? "type" Json.string? with
    | "private" => return .ownFile (← field known j "host") (← field known j "path")
    | "shared" => return .diskFile (← field known j "disk") (← field known j "path")
    | "persistent" => return .persistent (← field known j "id")
    | "binding" => return .binding (← field known j "host") (← field known j "id")
    | _ => none

instance : Wire DataInfo where
  encode d := .obj
    [("name", encode d.name), ("aliases", encode d.aliases), ("locations", encode d.locations),
      ("persistent_id", encode d.persistentId), ("binding_id", encode d.bindingId),
      ("in_memory", encode d.inMemory), ("size", encode d.size), ("obsolete", encode d.obsolete),
      ("copies_in_flight", encode d.copiesInFlight)]
  decode known := Json.record?
      { names := ["name", "aliases", "locations", "persistent_id", "binding_id", "in_memory",
          "size", "obsolete", "copies_in_flight"] } fun j => do
    return {
      name := ← field known j "name"
      aliases := ← field known j "aliases"
      locations := ← field known j "locations"
      persistentId := ← fieldOption known j "persistent_id"
      bindingId := ← fieldOption known j "binding_id"
      inMemory := ← field known j "in_memory"
      size := ← field known j "size"
      obsolete := ← field known j "obsolete"
      copiesInFlight := ← field known j "copies_in_flight" }

instance : Wire RescueOrder where
  encode o := .obj [("data", encode o.data), ("host", encode o.host), ("source", encode o.source)]
  decode known := Json.record? { names := ["data", "host", "source"] } fun j => do
    return ⟨← field known j "data", ← field known j "host", ← field known j "source"⟩

/-- How a copy ended. -/
def ofOutcome : CopyOutcome → Json
  | .completed r => .obj [("completed", encode r)]
  | .failed reason => .obj [("failed", .str reason)]

/-- The handle of a copy. -/
def ofHandle (h : CopyHandle) : Json := .obj
  [("id", encode h.id), ("data", encode h.data), ("target", encode h.target),
    ("is_new", encode h.isNew)]

end TaskGrid.Wire
