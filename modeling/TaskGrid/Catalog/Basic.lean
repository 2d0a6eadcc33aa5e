import TaskGrid.Catalog.Datum
import TaskGrid.Replica.Mounts

/-!
# The catalog of data

The catalog knows every datum by all its names and where its replicas are.  Beside the replicas
themselves it keeps two indexes: the data that were put on a host directly, and the data that
were put on a shared disk.  Together with the mount table they say what a host holds.

A datum becomes available when its first replica is added, and each of its names is then
announced; a further name of an available datum is announced when it is linked.  Operations that
may announce return the announced names, in order.

## Main definitions

* `Catalog.register`, `Catalog.link?`: the names.
* `Catalog.addReplica`: the replicas.
* `Catalog.resolve?`, `Catalog.pathsOn`, `Catalog.hostsOf`, `Catalog.dataOn`: who reads what.
-/

namespace TaskGrid

/-- What the catalog keeps for a host. -/
structure HostEntry where
  /-- Canonical names of the data put on the host directly. -/
  data : SortedSet String := .empty
  /-- Canonical names of superseded data that the host may drop. -/
  obsolete : SortedSet String := .empty
  deriving DecidableEq

/-- Every datum, its names and its replicas. -/
structure Catalog where
  /-- The canonical name of each registered name. -/
  names : SortedMap String String := .empty
  /-- Each datum under its canonical name. -/
  data : SortedMap String Datum := .empty
  /-- What is kept for each host. -/
  hosts : SortedMap String HostEntry := .empty
  /-- Who mounts which shared disk. -/
  mounts : Mounts := .empty
  /-- Canonical names of the data put on each shared disk. -/
  disks : SortedMap String (SortedSet String) := .empty
  /-- The number of the last copy that was started. -/
  lastCopy : Nat := 0
  deriving DecidableEq

namespace Catalog

/-- The catalog without data. -/
def empty : Catalog := {}

instance : Inhabited Catalog := ⟨empty⟩

/-! ## Names -/

/-- The canonical name behind a registered name. -/
def canonical? (c : Catalog) (name : String) : Option String := c.names.get? name

/-- The datum behind a registered name. -/
def datum? (c : Catalog) (name : String) : Option Datum := (c.canonical? name).bind c.data.get?

/-- Whether a name is registered. -/
def isRegistered (c : Catalog) (name : String) : Bool := c.names.contains name

/-- Whether the datum behind a name can be read somewhere. -/
def isAvailable (c : Catalog) (name : String) : Bool := (c.datum? name).any Datum.isAvailable

/-- The number of registered names. -/
def size (c : Catalog) : Nat := c.names.size

/-- The description of the datum behind a name. -/
def info? (c : Catalog) (name : String) : Option DataInfo :=
  (c.canonical? name).bind fun canonical => (c.data.get? canonical).map (·.info canonical)

/-- The catalog with a name registered; a name that is not yet known becomes a new datum. -/
def register (c : Catalog) (name : String) : Catalog :=
  if c.isRegistered name then c
  else { c with names := c.names.insert name name, data := c.data.insert name (.named name) }

/-- The canonical name that a name has once it is registered. -/
def canonicalOf (c : Catalog) (name : String) : String := (c.canonical? name).getD name

@[simp] theorem canonical?_register_self (c : Catalog) (name : String) :
    (c.register name).canonical? name = some (c.canonicalOf name) := by
  unfold register isRegistered canonicalOf canonical? SortedMap.contains
  cases h : c.names.get? name <;> simp [h]

/-- Registering a name changes what no other name stands for. -/
theorem canonical?_register_of_ne (c : Catalog) {name n : String} (h : n ≠ name) :
    (c.register name).canonical? n = c.canonical? n := by
  unfold register
  split
  · rfl
  · exact SortedMap.get?_insert_of_ne _ _ h

/-- The catalog with the datum of canonical name `canonical` changed. -/
def update (c : Catalog) (canonical : String) (f : Datum → Datum) : Catalog :=
  { c with data := c.data.modify canonical f }

@[simp] theorem canonical?_update (c : Catalog) (canonical : String) (f : Datum → Datum)
    (n : String) : (c.update canonical f).canonical? n = c.canonical? n := rfl

/-- The outcome of linking a name. -/
structure Linked where
  /-- The catalog afterwards. -/
  catalog : Catalog
  /-- The canonical name of the datum. -/
  canonical : String
  /-- The names to announce. -/
  announced : List String

/-- Makes `name` a further name of the datum behind `existing`, whatever it named before. -/
def link? (c : Catalog) (name existing : String) : Option Linked :=
  (c.canonical? existing).map fun canonical =>
    { catalog := { c with names := c.names.insert name canonical }.update canonical (·.addName name)
      canonical
      announced := if c.isAvailable existing then [name] else [] }

/-! ## Replicas -/

/-- The catalog with a datum recorded in the index that covers a replica. -/
def index (c : Catalog) (canonical : String) (r : Replica) : Catalog :=
  match r with
  | .diskFile disk _ =>
    { c with disks := c.disks.insert disk (((c.disks.get? disk).getD .empty).insert canonical) }
  | .persistent _ => c
  | .ownFile host _ => onHost host
  | .binding host _ => onHost host
where
  /-- The index of a host with the datum. -/
  onHost (host : String) : Catalog :=
    let entry := (c.hosts.get? host).getD {}
    { c with hosts := c.hosts.insert host { entry with data := entry.data.insert canonical } }

/-- The outcome of adding a replica. -/
structure Added where
  /-- The catalog afterwards. -/
  catalog : Catalog
  /-- Whether the replica was new. -/
  isNew : Bool
  /-- The names to announce. -/
  announced : List String

/-- Adds a replica to the datum of canonical name `canonical`.  A replica that is already there
changes nothing. -/
def insertReplica (c : Catalog) (canonical : String) (r : Replica) : Added :=
  match c.data.get? canonical with
  | none => ⟨c, false, []⟩
  | some d =>
    if r ∈ d.replicas then ⟨c, false, []⟩
    else
      ⟨(c.index canonical r).update canonical (·.addReplica r), true,
        if d.isAvailable then [] else d.names⟩

/-- Adds a replica to the datum behind a name, which is registered first if need be. -/
def addReplica (c : Catalog) (name : String) (r : Replica) : Added :=
  (c.register name).insertReplica (c.canonicalOf name) r

/-- The catalog with the value of a datum in local memory, or not. -/
def setInMemory (c : Catalog) (name : String) (b : Bool) : Catalog :=
  (c.register name).update (c.canonicalOf name) ({ · with inMemory := b })

/-- The catalog with the size of a datum. -/
def setSize (c : Catalog) (name : String) (n : Nat) : Catalog :=
  (c.register name).update (c.canonicalOf name) ({ · with size := n })

/-! ## Shared disks -/

/-- The catalog after a host mounts a disk. -/
def mount (c : Catalog) (disk host point : String) : Catalog :=
  { c with mounts := c.mounts.mount disk host point }

/-- The catalog after a host unmounts every disk. -/
def unmountHost (c : Catalog) (host : String) : Catalog :=
  { c with mounts := c.mounts.unmountHost host }

/-! ## Who reads what -/

/-- The replica by which a host reads a datum: the first with a path on the host, or else the
first in persistent storage. -/
def resolve? (c : Catalog) (name host : String) : Option Replica :=
  (c.datum? name).bind fun d =>
    (d.replicas.toList.find? fun r => !r.isPersistent && (r.pathOn? c.mounts host).isSome).or
      (d.replicas.toList.find? Replica.isPersistent)

/-- The paths by which a host reads a datum, in the order of its replicas. -/
def pathsOn (c : Catalog) (name host : String) : List String :=
  ((c.datum? name).map fun d => d.replicas.toList.filterMap (·.pathOn? c.mounts host)).getD []

/-- The hosts that hold a replica of a datum. -/
def holders (c : Catalog) (d : Datum) : SortedSet String :=
  .ofList (d.replicas.toList.flatMap fun r => (r.places c.mounts).map Prod.fst)

/-- The hosts that hold a replica of the datum behind a name. -/
def hostsOf (c : Catalog) (name : String) : SortedSet String :=
  ((c.datum? name).map c.holders).getD .empty

/-- Canonical names of the data that the indexes place on a host, directly or through a shared
disk that the host mounts. -/
def dataOn (c : Catalog) (host : String) : SortedSet String :=
  (c.mounts.disksOf host).foldl (fun s disk => s.union ((c.disks.get? disk).getD .empty))
    ((c.hosts.get? host).map (·.data) |>.getD .empty)

/-! ## Superseded data -/

/-- The catalog with a datum marked as superseded and queued on every host that holds it. -/
def markObsolete? (c : Catalog) (name : String) : Option Catalog :=
  (c.canonical? name).bind fun canonical => (c.data.get? canonical).map fun d =>
    (c.holders d).toList.foldl
      (fun c host =>
        let entry := (c.hosts.get? host).getD {}
        { c with
          hosts := c.hosts.insert host { entry with obsolete := entry.obsolete.insert canonical } })
      (c.update canonical ({ · with obsolete := true }))

/-- The queue of superseded data of a host, and the catalog with the queue emptied. -/
def takeObsolete (c : Catalog) (host : String) : List String × Catalog :=
  ((c.hosts.get? host).map (·.obsolete.toList) |>.getD [],
    { c with hosts := c.hosts.modify host ({ · with obsolete := .empty }) })

/-- The catalog without what was kept for a host. -/
def forgetHost (c : Catalog) (host : String) : Catalog :=
  { c with hosts := c.hosts.erase host }

end Catalog

end TaskGrid
