import TaskGrid.Capacity.Basic

/-!
# Faults

The reasons for which an operation is refused, and their wording.
-/

namespace TaskGrid

/-- Why an operation was refused. -/
inductive Fault where
  /-- No worker of this key is registered. -/
  | unknownResource (worker : String)
  /-- A category holds fewer units than were to be taken from it. -/
  | capacityUnderflow (shortage : Shortage)
  /-- No registered worker could ever carry out the action. -/
  | noEligibleResource (action : Nat)
  /-- The worker is gone while actions were bound to it. -/
  | nodeLost (worker : String)
  /-- A datum that had to be saved could not be. -/
  | dataRescueFailure (data reason : String)
  /-- No action of this identifier is tracked. -/
  | unknownAction (action : Nat)
  /-- No session of this application is open. -/
  | unknownApplication (application : String)
  /-- No datum of this name is registered. -/
  | unknownData (name : String)
  /-- No source of a datum could be recorded. -/
  | noDataSources (name : String)
  /-- The settings contradict themselves. -/
  | invalidConfig (detail : String)
  deriving DecidableEq

/-- The wording of a fault. -/
def Fault.message : Fault → String
  | unknownResource w => "unknown resource: " ++ w
  | capacityUnderflow s =>
    "capacity underflow on " ++ s.category.name ++ ": requested " ++ toString s.requested.count ++
      ", available " ++ toString s.available.count
  | noEligibleResource a => "no eligible resource for action " ++ toString a
  | nodeLost w => "node lost: " ++ w
  | dataRescueFailure d r => "rescue of data `" ++ d ++ "` failed: " ++ r
  | unknownAction a => "unknown action: " ++ toString a
  | unknownApplication a => "unknown application: " ++ a
  | unknownData n => "unknown data: " ++ n
  | noDataSources n => "could not add any source for data " ++ n
  | invalidConfig d => "invalid configuration: " ++ d

end TaskGrid
