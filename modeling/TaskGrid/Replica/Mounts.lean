import TaskGrid.Replica.Basic
import TaskGrid.Sorted.Map

/-!
# Shared disks and who can read a replica

A mount table says which hosts mount which shared disks, and where.  Through it a replica has a
path on a host, or none, and a list of the hosts from which it can be read.  A persistent replica
can be read everywhere and yet is on no host.

## Main definitions

* `Mounts.mount`, `Mounts.unmountHost`: the two changes of the table.
* `Replica.pathOn?`: how one host reads a replica.
* `Replica.places`: every host that holds a replica, with its path there.
-/

namespace TaskGrid

/-- Which hosts mount which shared disks, and where. -/
structure Mounts where
  /-- For each disk its hosts and their mount points. -/
  disks : SortedMap String (SortedMap String String) := .empty
  deriving DecidableEq

namespace Mounts

/-- The table without mounts. -/
def empty : Mounts := {}

instance : Inhabited Mounts := ⟨empty⟩

/-- The hosts that mount a disk, with their mount points, in host order. -/
def hostsOf (m : Mounts) (disk : String) : List (String × String) :=
  ((m.disks.get? disk).getD .empty).entries

/-- Where a host mounts a disk. -/
def pointOf? (m : Mounts) (disk host : String) : Option String :=
  (m.disks.get? disk).bind (·.get? host)

/-- The table after a host mounts a disk; an earlier mount point is replaced. -/
def mount (m : Mounts) (disk host point : String) : Mounts :=
  ⟨m.disks.insert disk (((m.disks.get? disk).getD .empty).insert host point)⟩

/-- The disks that a host mounts, in order. -/
def disksOf (m : Mounts) (host : String) : List String :=
  (m.disks.entries.filter fun e => e.2.contains host).map Prod.fst

/-- The table after a host unmounts every disk. -/
def unmountHost (m : Mounts) (host : String) : Mounts := ⟨m.disks.mapValues (·.erase host)⟩

theorem pointOf?_mount (m : Mounts) (disk host point d h : String) :
    (m.mount disk host point).pointOf? d h =
      if d = disk ∧ h = host then some point else m.pointOf? d h := by
  unfold pointOf? mount
  rw [SortedMap.get?_insert]
  by_cases hd : d = disk
  · subst hd
    by_cases hh : h = host
    · simp [hh]
    · cases hm : m.disks.get? d <;> simp [hh, SortedMap.get?_insert]
  · simp [hd]

/-- Whether a host other than `host` mounts a disk. -/
def hasOther (m : Mounts) (disk host : String) : Bool := (m.hostsOf disk).any fun e => e.1 ≠ host

end Mounts

/-- A path below a mount point, joined by exactly one slash where either side has at most one. -/
def joinPath (point path : String) : String :=
  match point.toList.getLast? == some '/', path.toList with
  | true, '/' :: rest => point ++ String.ofList rest
  | true, _ => point ++ path
  | false, '/' :: _ => point ++ path
  | false, _ => point ++ "/" ++ path

namespace Replica

/-- The path by which a host reads a replica, if it can. -/
def pathOn? (m : Mounts) (host : String) : Replica → Option String
  | ownFile h path => if h = host then some path else none
  | binding h id => if h = host then some id else none
  | diskFile disk path => (m.pointOf? disk host).map (joinPath · path)
  | persistent id => some id

/-- The hosts that hold a replica, with its path on each. -/
def places (m : Mounts) : Replica → List (String × String)
  | ownFile host path => [(host, path)]
  | binding host id => [(host, id)]
  | diskFile disk path => (m.hostsOf disk).map fun e => (e.1, joinPath e.2 path)
  | persistent _ => []

end Replica

end TaskGrid
