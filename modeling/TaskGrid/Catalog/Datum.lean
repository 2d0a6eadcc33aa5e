import TaskGrid.Replica.Basic
import TaskGrid.Sorted.Set

/-!
# Data

A datum is a value that tasks read and write.  It has a canonical name, under which it was first
registered, and perhaps further names; it is available while it has a replica.  Copies to further
places are in flight until they finish or fail, and whoever listens to a copy is told then.
-/

namespace TaskGrid

/-- A copy of a datum in flight. -/
structure Copy where
  /-- The number of the copy, unique in its catalog. -/
  id : Nat
  /-- Where the copy lands. -/
  target : Replica
  /-- Who is told the outcome, in the order in which they asked. -/
  listeners : List String
  deriving DecidableEq

/-- How a copy ended. -/
inductive CopyOutcome where
  /-- The datum now also lives at the target. -/
  | completed (target : Replica)
  /-- The transfer failed. -/
  | failed (reason : String)
  deriving DecidableEq

/-- What a caller holds of a copy. -/
structure CopyHandle where
  /-- The number of the copy. -/
  id : Nat
  /-- The canonical name of the datum. -/
  data : String
  /-- Where the copy lands. -/
  target : Replica
  /-- Whether the call that gave the handle started the copy. -/
  isNew : Bool
  deriving DecidableEq

/-- A named datum. -/
structure Datum where
  /-- All its names, the canonical one first. -/
  names : List String
  /-- Whether the value is held in local memory. -/
  inMemory : Bool := false
  /-- The size in bytes, zero while unknown. -/
  size : Nat := 0
  /-- The identifier in persistent storage, once there was one. -/
  persistentId : Option String := none
  /-- The first identifier that a language binding gave it. -/
  bindingId : Option String := none
  /-- Where it can be read. -/
  replicas : SortedSet Replica := .empty
  /-- The copies in flight, oldest first. -/
  copies : List Copy := []
  /-- Whether a newer version has taken its place. -/
  obsolete : Bool := false
  /-- Whether a replica was handed out to be saved and none was added since. -/
  rescueIssued : Bool := false
  deriving DecidableEq

/-- A description of a datum. -/
structure DataInfo where
  /-- The canonical name. -/
  name : String
  /-- The further names. -/
  aliases : List String
  /-- Where it can be read. -/
  locations : List Replica
  /-- The identifier in persistent storage. -/
  persistentId : Option String
  /-- The identifier of a language binding. -/
  bindingId : Option String
  /-- Whether the value is held in local memory. -/
  inMemory : Bool
  /-- The size in bytes. -/
  size : Nat
  /-- Whether a newer version has taken its place. -/
  obsolete : Bool
  /-- The number of copies in flight. -/
  copiesInFlight : Nat
  deriving DecidableEq

namespace Datum

/-- The datum first registered under `name`. -/
def named (name : String) : Datum := { names := [name] }

/-- Whether the datum can be read somewhere. -/
def isAvailable (d : Datum) : Bool := !d.replicas.isEmpty

/-- The description of the datum with canonical name `name`. -/
def info (d : Datum) (name : String) : DataInfo where
  name := name
  aliases := d.names.drop 1
  locations := d.replicas.toList
  persistentId := d.persistentId
  bindingId := d.bindingId
  inMemory := d.inMemory
  size := d.size
  obsolete := d.obsolete
  copiesInFlight := d.copies.length

/-- The datum known by one more name. -/
def addName (d : Datum) (name : String) : Datum :=
  if name ∈ d.names then d else { d with names := d.names ++ [name] }

/-- The datum with a replica that it did not have.  What it was owed in rescues is settled, and
the identifiers that the replica carries are recorded. -/
def addReplica (d : Datum) (r : Replica) : Datum :=
  { d with
    replicas := d.replicas.insert r
    rescueIssued := false
    persistentId := match r with
      | .persistent id => some id
      | _ => d.persistentId
    bindingId := match r with
      | .binding _ id => d.bindingId.or (some id)
      | _ => d.bindingId }

end Datum

end TaskGrid
