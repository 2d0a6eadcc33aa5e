import TaskGrid.Application.Id

/-!
# Worker keys

A worker is known by its name, which is also the name of the host it serves, and by the one
application that may use it.  A worker without an application belongs to the permanent pool.
Several workers may thus serve one host.
-/

namespace TaskGrid

/-- What a worker is known by. -/
structure WorkerKey where
  /-- The name of the worker and of its host. -/
  name : String
  /-- The application that owns it, or none for the permanent pool. -/
  scope : Option ApplicationId
  deriving DecidableEq

namespace WorkerKey

/-- The key of a name in the permanent pool. -/
def permanent (name : String) : WorkerKey := ⟨name, none⟩

/-- The key of a name within one application. -/
def within (name : String) (app : ApplicationId) : WorkerKey := ⟨name, some app⟩

/-- The written form. -/
def text (k : WorkerKey) : String :=
  match k.scope with
  | some app => k.name ++ "_" ++ app.text
  | none => k.name

/-- Keys are ordered by name; of one name the permanent key comes first. -/
instance : Ord WorkerKey := ⟨compareLex (compareOn fun k => k.name) (compareOn fun k => k.scope)⟩

instance : Std.TransOrd WorkerKey :=
  inferInstanceAs (Std.TransCmp (compareLex (compareOn fun k : WorkerKey => k.name)
    (compareOn fun k => k.scope)))

instance : Std.LawfulEqOrd WorkerKey where
  eq_of_compare {a b} h := by
    obtain ⟨h₁, h₂⟩ := compareLex_eq_eq.1 h
    obtain ⟨n, s⟩ := a
    obtain ⟨n', s'⟩ := b
    obtain rfl : n = n' := Std.LawfulEqOrd.eq_of_compare h₁
    obtain rfl : s = s' := Std.LawfulEqOrd.eq_of_compare h₂
    rfl

end WorkerKey

end TaskGrid
