import TaskGrid.Catalog.Copies
import TaskGrid.Machine.Telling

/-!
# Data and rescues

The items by which data are registered, copied and saved.  Names that become available are
announced before the command that made them so is answered.
-/

namespace TaskGrid.World

/-- The answer to a command, if there is one to answer. -/
def answer (token : Option Nat) (r : Reply) : List Item := token.toList.map fun t => .reply t r

/-- Adds a replica. -/
def addReplica (w : World) (name : String) (r : Replica) (token : Option Nat) : Effect :=
  let added := w.catalog.addReplica name r
  ({ w with catalog := added.catalog },
    w.announcements added.announced ++ answer token (.flag added.isNew))

/-- Links a further name to a datum. -/
def link (w : World) (token : Nat) (name existing : String) : Effect :=
  match w.catalog.link? name existing with
  | none => (w, [.reply token (.refused (.unknownData existing))])
  | some l =>
    ({ w with catalog := l.catalog },
      w.announcements l.announced ++ [.reply token (.name l.canonical)])

/-! ## Copies -/

/-- Starts or joins a copy. -/
def startCopy (w : World) (token : Nat) (name : String) (target : Replica)
    (listener : Option String) : Effect :=
  match w.catalog.startCopy? name target listener with
  | none => (w, [.reply token (.refused (.unknownData name))])
  | some (h, catalog) => ({ w with catalog }, [.reply token (.handle h)])

/-- Listens to a copy in flight. -/
def listenToCopy (w : World) (token id : Nat) (data listener : String) : Effect :=
  match w.catalog.listenToCopy? data id listener with
  | none => (w, [.reply token (.flag false)])
  | some catalog => ({ w with catalog }, [.reply token (.flag true)])

/-- Ends a copy: its listeners are told, then the names that became available are announced. -/
def endCopy (w : World) (e : Catalog.CopyEnded) (outcome : CopyOutcome) : Effect :=
  (({ w with catalog := e.catalog }).noteAll
      (e.copy.listeners.map fun l => .copyEnded l e.canonical outcome),
    w.announcements e.announced)

/-- A copy was transferred. -/
def finishCopy (w : World) (token id : Nat) (data : String) : Effect :=
  match w.catalog.finishCopy? data id with
  | none => (w, [.reply token (.replica none)])
  | some e =>
    let (w, items) := w.endCopy e (.completed e.copy.target)
    (w, items ++ [.reply token (.replica e.copy.target)])

/-- A copy could not be transferred. -/
def failCopy (w : World) (token id : Nat) (data reason : String) : Effect :=
  match w.catalog.retireCopy? data id with
  | none => (w, [.reply token (.flag false)])
  | some e =>
    let (w, items) := w.endCopy e (.failed reason)
    (w, items ++ [.reply token (.flag true)])

/-! ## Rescues -/

/-- Hands orders to the sink: they are noted, carried out, or put off. -/
def handOver (w : World) (orders : List RescueOrder) : Effect :=
  match w.sink with
  | none => (w, [])
  | some .noting => (w.note (.handedOver true orders), [])
  | some (.dispatcher transfer deferred channel) =>
    if orders.isEmpty then (w, [])
    else
      let w := w.note (.handedOver false orders)
      let batch : RescueBatch := { transfer, orders, ending := .publish channel }
      if deferred then ({ w with deferred := w.deferred ++ [batch] }, [])
      else (w, [.rescue batch])

/-- Puts a report into the channel of its batch, if that is still open. -/
def publish (w : World) (channel : Option Nat) (r : RescueReport) : World :=
  match w.reports with
  | none => w
  | some (current, waiting) =>
    if channel = some current then { w with reports := some (current, waiting ++ [r]) } else w

/-- A batch has ended. -/
def endBatch (w : World) (r : RescueReport) : BatchEnding → Effect
  | .answer token => (w, [.reply token (.report r)])
  | .publish channel =>
    let w := if r.isClean then w else w.note (.alarm (.batchLoss r.saved.length r.failures.length))
    (w.publish channel r, [])

/-- Carries out the next order of a batch. -/
def rescue (w : World) (b : RescueBatch) : Effect :=
  match b.orders with
  | [] => w.endBatch b.report b.ending
  | o :: rest =>
    let w := w.note (.saving o.data o.source)
    let b := { b with orders := rest }
    match b.transfer.save o.data o.source with
    | .ok r =>
      let b := { b with report := { b.report with saved := b.report.saved ++ [(o.data, r)] } }
      (w, [.addReplica o.data r none, .rescue b])
    | .error reason =>
      let fault := Fault.dataRescueFailure o.data reason
      let b := { b with report := { b.report with failures := b.report.failures ++ [fault] } }
      (w.note (.alarm (.dataLost o reason)), [.rescue b])

/-- Carries out the oldest batch that was put off, then the others. -/
def runDeferred (w : World) : Effect :=
  match w.deferred with
  | [] => (w, [])
  | b :: rest => ({ w with deferred := rest }, [.rescue b, .runDeferred])

/-- Rescue orders are carried out from now on. -/
def setDispatcher (w : World) (transfer : Transfer) (deferred reports : Bool) : World :=
  if reports then
    let channel := w.channels + 1
    { w with
      channels := channel
      reports := some (channel, [])
      sink := some (.dispatcher transfer deferred (some channel)) }
  else { w with sink := some (.dispatcher transfer deferred none) }

end TaskGrid.World
