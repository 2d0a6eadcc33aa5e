import TaskGrid.Machine.World
import TaskGrid.Wire.Request

/-!
# Answers and notices, written

Only written, never read: what the grid answers to commands, and what observers were told.
-/

namespace TaskGrid.Wire

/-- The name of the kind of a fault. -/
def faultKind : Fault → String
  | .unknownResource _ => "UnknownResource"
  | .capacityUnderflow _ => "CapacityUnderflow"
  | .noEligibleResource _ => "NoEligibleResource"
  | .nodeLost _ => "NodeLost"
  | .dataRescueFailure .. => "DataRescueFailure"
  | .unknownAction _ => "UnknownAction"
  | .unknownApplication _ => "UnknownApplication"
  | .unknownData _ => "UnknownData"
  | .noDataSources _ => "NoDataSources"
  | .invalidConfig _ => "InvalidConfig"

/-- A fault: its kind and its wording. -/
def ofFault (f : Fault) : Json := .obj [("error", .str (faultKind f)), ("message", .str f.message)]

/-- What was done without anything to tell. -/
def ok : Json := .str "ok"

/-- The answer of the pool. -/
def ofPoolAnswer : Pool.Answer → Json
  | .view v => encode v
  | .seen v => encode v
  | .removal s => ofRemoval s
  | .lost l => ofLost l
  | .refused f => ofFault f

/-- A rescue report. -/
def ofReport (r : RescueReport) : Json := .obj
  [("saved", .arr (r.saved.map fun x => .arr [.str x.1, encode x.2])),
    ("failures", .arr (r.failures.map ofFault)), ("clean", .bool r.isClean)]

/-- The answer to a command. -/
def ofReply : Reply → Json
  | .done => ok
  | .flag b => .bool b
  | .number n => encode n
  | .name s => .str s
  | .names l => encode l
  | .pool a => ofPoolAnswer a
  | .assignments l => encode l
  | .handle h => ofHandle h
  | .replica r => encode r
  | .app a => .obj [("app", encode a)]
  | .started a id => .obj [("app", encode a), ("action", encode id)]
  | .nodes l => encode l
  | .report r => ofReport r
  | .reports l => Json.ofOption (fun l => .arr (l.map ofReport)) l
  | .mail l => encode l
  | .refused f => ofFault f
  | .noAgent => .obj [("error", .str "NoAgent")]
  | .noSink => .obj [("error", .str "Parse")]

/-- The fields of an alarm beside its wording. -/
def alarmFields : Alarm → List (String × Json)
  | .unclaimedRescue worker o =>
    [("worker", .str worker), ("data", .str o.data), ("host", .str o.host),
      ("source", .str o.source.text)]
  | .dataLost o reason =>
    [("data", .str o.data), ("host", .str o.host), ("source", .str o.source.text),
      ("reason", .str reason)]
  | .batchLoss saved lost => [("saved", encode saved), ("lost", encode lost)]

/-- A notice, if it went to somebody who writes a journal. -/
def ofNotice? : Notice → Option Json
  | .delivered (.client _ label) e => some (.obj [("event", encode e), ("monitor", .str label)])
  | .delivered .. => none
  | .assigned a => some (.obj [("assignment", encode a)])
  | .capacity w free => some (.obj [("capacity", encode w), ("free", encode free)])
  | .removed r => some (.obj [("removed", ofRemoved r)])
  | .hooked (.caller label) r => some (.obj [("hook", .str label), ("removed", ofRemoved r)])
  | .hooked .agent _ => none
  | .available name label => some (.obj [("available", .str name), ("subscriber", .str label)])
  | .copyEnded listener data o =>
    some (.obj [("copy_listener", .str listener), ("data", .str data), ("outcome", ofOutcome o)])
  | .saving data source => some (.obj [("save", .str data), ("source", encode source)])
  | .handedOver noted orders => if noted then some (.obj [("dispatch", encode orders)]) else none
  | .disturbed name a => some (.obj [("during_score", .str name), ("result", ofPoolAnswer a)])
  | .alarm a => some (.obj [("error_log", .obj (("message", .str a.message) :: alarmFields a))])
  | .replied .. => none

end TaskGrid.Wire
