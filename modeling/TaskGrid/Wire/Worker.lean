import TaskGrid.Pool.Operation
import TaskGrid.Wire.Capacity
import TaskGrid.Wire.Data

/-!
# Workers, written
-/

namespace TaskGrid.Wire

instance : Wire WorkerKey where
  encode k := .obj [("name", encode k.name), ("scope", encode k.scope)]
  decode known := Json.record? { names := ["name", "scope"] } fun j => do
    return ⟨← field known j "name", ← fieldOption known j "scope"⟩

/-- Fields whose values are all strings. -/
def stringFields? : List (String × Json) → Option (List (String × String))
  | [] => some []
  | (name, v) :: r => do return (name, ← v.string?) :: (← stringFields? r)

/-- An object whose values are all strings. -/
def strings? : Json → Option (SortedMap String String)
  | .obj fields => (stringFields? fields).map SortedMap.ofList
  | _ => none

instance : Wire Adaptor where
  encode a := .obj
    [("adaptor", encode a.adaptor),
      ("properties", .obj (a.properties.entries.map fun e => (e.1, .str e.2)))]
  decode known := Json.record? { names := ["adaptor", "properties"], omittable := 1 } fun j => do
    return ⟨← field known j "adaptor", ← j.defaulted? "properties" .empty strings?⟩

instance : Wire WorkerView where
  encode v := .obj
    [("key", encode v.key), ("seq", encode v.seq), ("free", encode v.free),
      ("total", encode v.total), ("withheld", encode v.withheld),
      ("queue_depth", encode v.queueDepth), ("removing", encode v.removing)]
  decode known := Json.record?
      { names := ["key", "seq", "free", "total", "withheld", "queue_depth",
          "removing"] } fun j => do
    return {
      key := ← field known j "key"
      seq := ← field known j "seq"
      free := ← field known j "free"
      total := ← field known j "total"
      withheld := ← field known j "withheld"
      queueDepth := ← field known j "queue_depth"
      removing := ← field known j "removing" }

/-- The record of a removal. -/
def ofRemoved (r : RemovedWorker) : Json := .obj
  [("key", encode r.key), ("reclaimed", encode r.reclaimed), ("rescues", encode r.rescues),
    ("forced", encode r.forced), ("claimed", encode r.claimed)]

/-- What became of a worker that was asked to leave. -/
def ofRemoval : RemovalStatus → Json
  | .removed r => .obj [("removed", ofRemoved r)]
  | .draining n => .obj [("draining", encode n)]

/-- What became of a lost worker. -/
def ofLost (l : LostWorker) : Json :=
  .obj [("bound_actions", encode l.bound), ("removed", ofRemoved l.removed)]

end TaskGrid.Wire
