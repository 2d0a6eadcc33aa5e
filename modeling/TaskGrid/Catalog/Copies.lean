import TaskGrid.Catalog.Basic

/-!
# Copies in flight

At most one copy of a datum to each target is in flight: a further request for it joins.  A copy
ends once, by finishing or by failing, and all who listen to it are then told in the order in
which they asked.  When it finishes, its target becomes a replica.
-/

namespace TaskGrid.Catalog

/-- The handles of the copies of a datum in flight. -/
def copies (c : Catalog) (name : String) : List CopyHandle :=
  ((c.canonical? name).bind fun canonical => (c.data.get? canonical).map fun d =>
    d.copies.map fun x => ⟨x.id, canonical, x.target, false⟩).getD []

/-- Starts a copy, or joins the one that is already on its way to the same target. -/
def startCopy? (c : Catalog) (name : String) (target : Replica) (listener : Option String) :
    Option (CopyHandle × Catalog) :=
  (c.canonical? name).bind fun canonical => (c.data.get? canonical).map fun d =>
    match d.copies.find? fun x => x.target = target with
    | some x =>
      let join (y : Copy) : Copy :=
        if y.id = x.id then { y with listeners := y.listeners ++ listener.toList } else y
      (⟨x.id, canonical, target, false⟩,
        c.update canonical fun d => { d with copies := d.copies.map join })
    | none =>
      let id := c.lastCopy + 1
      let copy : Copy := ⟨id, target, listener.toList⟩
      (⟨id, canonical, target, true⟩,
        { c with lastCopy := id }.update canonical fun d => { d with copies := d.copies ++ [copy] })

/-- Adds a listener to a copy in flight. -/
def listenToCopy? (c : Catalog) (data : String) (id : Nat) (listener : String) : Option Catalog :=
  (c.canonical? data).bind fun canonical => (c.data.get? canonical).bind fun d =>
    if d.copies.any fun x => x.id = id then
      let attach (x : Copy) : Copy :=
        if x.id = id then { x with listeners := x.listeners ++ [listener] } else x
      some (c.update canonical fun d => { d with copies := d.copies.map attach })
    else none

/-- The outcome of ending a copy. -/
structure CopyEnded where
  /-- The catalog afterwards. -/
  catalog : Catalog
  /-- The canonical name of the datum. -/
  canonical : String
  /-- The copy that ended. -/
  copy : Copy
  /-- The names to announce. -/
  announced : List String

/-- Takes a copy out of flight. -/
def retireCopy? (c : Catalog) (data : String) (id : Nat) : Option CopyEnded :=
  (c.canonical? data).bind fun canonical => (c.data.get? canonical).bind fun d =>
    (d.copies.find? fun x => x.id = id).map fun copy =>
      { catalog := c.update canonical fun d =>
          { d with copies := d.copies.filter fun x => x.id ≠ id }
        canonical
        copy
        announced := [] }

/-- Ends a copy that was transferred. -/
def finishCopy? (c : Catalog) (data : String) (id : Nat) : Option CopyEnded :=
  (c.retireCopy? data id).map fun e =>
    let added := e.catalog.insertReplica e.canonical e.copy.target
    { e with catalog := added.catalog, announced := added.announced }

end TaskGrid.Catalog
