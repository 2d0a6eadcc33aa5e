/-!
# Replicas

A replica is one place from which a datum can be read: a file of one host, a file of a shared
disk, an object in persistent storage, or an object that a language binding holds on one host.
Two replicas are the same when all their fields agree.

Replicas are ordered by kind, in the order above, and then by their fields.
-/

namespace TaskGrid

/-- A place from which a datum can be read. -/
inductive Replica where
  /-- A file of one host. -/
  | ownFile (host path : String)
  /-- A file of a shared disk, by its path below the mount point. -/
  | diskFile (disk path : String)
  /-- An object in persistent storage. -/
  | persistent (id : String)
  /-- An object that a language binding holds on one host. -/
  | binding (host id : String)
  deriving DecidableEq

namespace Replica

/-- The place of a replica in the order: its kind, then its fields. -/
def sortKey : Replica → Nat × String × String
  | ownFile host path => (0, host, path)
  | diskFile disk path => (1, disk, path)
  | persistent id => (2, id, "")
  | binding host id => (3, host, id)

theorem sortKey_injective {a b : Replica} (h : a.sortKey = b.sortKey) : a = b := by
  cases a <;> cases b <;> simp_all [sortKey]

instance : Ord Replica :=
  ⟨compareLex (compareOn fun r => r.sortKey.1)
    (compareLex (compareOn fun r => r.sortKey.2.1) (compareOn fun r => r.sortKey.2.2))⟩

instance : Std.TransOrd Replica :=
  inferInstanceAs (Std.TransCmp (compareLex (compareOn fun r : Replica => r.sortKey.1)
    (compareLex (compareOn fun r => r.sortKey.2.1) (compareOn fun r => r.sortKey.2.2))))

instance : Std.LawfulEqOrd Replica where
  eq_of_compare {a b} h := by
    obtain ⟨h₁, h⟩ := compareLex_eq_eq.1 h
    obtain ⟨h₂, h₃⟩ := compareLex_eq_eq.1 h
    exact sortKey_injective (Prod.ext (Std.LawfulEqOrd.eq_of_compare h₁)
      (Prod.ext (Std.LawfulEqOrd.eq_of_compare h₂) (Std.LawfulEqOrd.eq_of_compare h₃)))

/-- The only host that can read the replica, if its kind has one. -/
def soleHost? : Replica → Option String
  | ownFile host _ => some host
  | binding host _ => some host
  | diskFile .. => none
  | persistent _ => none

/-- Whether the replica is in persistent storage. -/
def isPersistent : Replica → Bool
  | persistent _ => true
  | _ => false

/-- The written form, as a locator. -/
def text : Replica → String
  | ownFile host path => "file://" ++ host ++ path
  | diskFile disk path => "shared://" ++ disk ++ path
  | persistent id => "persistent://" ++ id
  | binding host id => "binding://" ++ host ++ "/" ++ id

@[simp] theorem soleHost?_ownFile (h p : String) : (ownFile h p).soleHost? = some h := rfl

@[simp] theorem soleHost?_binding (h i : String) : (binding h i).soleHost? = some h := rfl

@[simp] theorem soleHost?_diskFile (d p : String) : (diskFile d p).soleHost? = none := rfl

@[simp] theorem soleHost?_persistent (i : String) : (persistent i).soleHost? = none := rfl

end Replica

end TaskGrid
