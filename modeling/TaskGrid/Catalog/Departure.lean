import TaskGrid.Catalog.Basic

/-!
# A host departs

When a host departs, its own replicas go with it, and so do the files of shared disks that no
other host mounts.  A datum that loses its last replica in this way has to be saved: the catalog
hands out one of the leaving replicas, from which it is to be copied elsewhere.
-/

namespace TaskGrid

/-- A datum to be saved because its last replica is leaving. -/
structure RescueOrder where
  /-- The canonical name of the datum. -/
  data : String
  /-- The departing host. -/
  host : String
  /-- The replica to save. -/
  source : Replica
  deriving DecidableEq

namespace Catalog

/-- Whether a replica goes with a departing host. -/
def leavesWith (c : Catalog) (host : String) : Replica → Bool
  | .ownFile h _ => h = host
  | .binding h _ => h = host
  | .diskFile disk _ => (c.mounts.pointOf? disk host).isSome && !c.mounts.hasOther disk host
  | .persistent _ => false

/-- The replica to save from: the first file of a host, else the first object of a binding, else
the first. -/
def rescueSource? (leaving : List Replica) : Option Replica :=
  let isFile : Replica → Bool
    | .ownFile .. => true
    | _ => false
  let isObject : Replica → Bool
    | .binding .. => true
    | _ => false
  (leaving.find? isFile).or ((leaving.find? isObject).or leaving.head?)

/-- Takes the leaving replicas from the datum behind a name and says which of them to save, if
one has to be.  A datum is not handed out again before a replica is added to it. -/
def removeHost (c : Catalog) (name host : String) : Option Replica × Catalog :=
  match c.canonical? name with
  | none => (none, c)
  | some canonical =>
    match c.data.get? canonical with
    | none => (none, c)
    | some d =>
      let leaving := d.replicas.filter (c.leavesWith host)
      let staying := d.replicas.filter fun r => !c.leavesWith host r
      let source :=
        if d.persistentId.isSome || d.rescueIssued || !staying.isEmpty then none
        else rescueSource? leaving.toList
      let c := { c with
        hosts := c.hosts.modify host fun e => { e with data := e.data.erase canonical } }
      (source, c.update canonical fun d =>
        { d with replicas := staying, rescueIssued := d.rescueIssued || source.isSome })

/-- Lets a host depart: every datum that the indexes place on it loses its leaving replicas, the
host mounts nothing any more and nothing is kept for it.  Returns what has to be saved. -/
def departHost (c : Catalog) (host : String) : List RescueOrder × Catalog :=
  let (orders, c) := (c.dataOn host).toList.foldl
    (fun (orders, c) name =>
      let (source, c) := c.removeHost name host
      (orders ++ source.toList.map fun r => ⟨name, host, r⟩, c))
    ([], c)
  (orders, (c.unmountHost host).forgetHost host)

end Catalog

end TaskGrid
