import TaskGrid.Catalog.Departure
import TaskGrid.Fault

/-!
# Rescues

Data whose last replica leaves with a host are saved by a transfer, which answers with the new
replica or with a reason for its failure.  The orders of one departure form a batch, and a batch
ends with a report that accounts for every one of its orders.
-/

namespace TaskGrid

/-- A way to save a replica elsewhere. -/
structure Transfer where
  /-- Saves a datum from a replica: the new replica, or why it failed. -/
  save : String → Replica → Except String Replica

/-- What became of a batch of orders. -/
structure RescueReport where
  /-- The data that were saved, with their new replicas. -/
  saved : List (String × Replica) := []
  /-- A fault for each datum that was lost. -/
  failures : List Fault := []
  deriving DecidableEq

/-- Whether everything was saved. -/
def RescueReport.isClean (r : RescueReport) : Bool := r.failures.isEmpty

/-- Where rescue orders go. -/
inductive RescueSink where
  /-- They are only noted. -/
  | noting
  /-- They are carried out, at once or at the next occasion; reports go to a channel, if any. -/
  | dispatcher (transfer : Transfer) (deferred : Bool) (channel : Option Nat)

/-- What happens when a batch has ended. -/
inductive BatchEnding where
  /-- Losses are reported as an alarm and the report goes to a channel, if any. -/
  | publish (channel : Option Nat)
  /-- The report answers a command. -/
  | answer (token : Nat)
  deriving DecidableEq

/-- A batch of orders under way. -/
structure RescueBatch where
  /-- The way to save. -/
  transfer : Transfer
  /-- The orders still to carry out. -/
  orders : List RescueOrder
  /-- What became of those before. -/
  report : RescueReport := {}
  /-- What happens at the end. -/
  ending : BatchEnding

/-- Something that has gone wrong for good. -/
inductive Alarm where
  /-- Nobody took over an order of a drained worker. -/
  | unclaimedRescue (worker : String) (order : RescueOrder)
  /-- An order could not be carried out. -/
  | dataLost (order : RescueOrder) (reason : String)
  /-- A batch ended with losses. -/
  | batchLoss (saved lost : Nat)
  deriving DecidableEq

/-- The wording of an alarm. -/
def Alarm.message : Alarm → String
  | unclaimedRescue .. => "rescue owed but no hook or listener claimed it"
  | dataLost .. => "DATA LOST: rescue transfer failed, no replica remains"
  | batchLoss .. => "rescue batch finished with data loss"

end TaskGrid
