import TaskGrid.Application.Uuid

/-!
# Application identifiers

An application is known by the identifier it was given when its session opened.  Identifiers
that this grid hands out are numbered in the order of their sessions; an identifier that was made
elsewhere is kept literally.  The two never coincide, so a fresh session is never mistaken for
another application.
-/

namespace TaskGrid

/-- The identifier of an application. -/
inductive ApplicationId where
  /-- The identifier handed out with the `ordinal`-th session. -/
  | issued (ordinal : Nat)
  /-- An identifier from elsewhere. -/
  | literal (uuid : Uuid)
  deriving DecidableEq

namespace ApplicationId

/-- The written form. -/
def text : ApplicationId → String
  | issued n => "app" ++ toString n
  | literal u => u.text

/-- The ordinal that a written form of an issued identifier carries. -/
def ordinal? (s : String) : Option Nat :=
  match s.toList with
  | 'a' :: 'p' :: 'p' :: r =>
    let n := r.foldl (fun n c => 10 * n + (c.toNat - '0'.toNat)) 0
    if (toString n).toList = r then some n else none
  | _ => none

/-- Reads a written form when `known` identifiers have been handed out. -/
def read? (known : Nat) (s : String) : Option ApplicationId :=
  match ordinal? s with
  | some n => if 1 ≤ n ∧ n ≤ known then some (issued n) else none
  | none => (Uuid.read? s).map literal

/-- Literal identifiers come first; both kinds are ordered by number. -/
def sortKey : ApplicationId → Nat × Nat
  | literal u => (0, u.value)
  | issued n => (1, n)

theorem sortKey_injective {a b : ApplicationId} (h : a.sortKey = b.sortKey) : a = b := by
  cases a <;> cases b <;> simp_all [sortKey, Uuid.ext_iff]

instance : Ord ApplicationId :=
  ⟨compareLex (compareOn fun a => a.sortKey.1) (compareOn fun a => a.sortKey.2)⟩

instance : Std.TransOrd ApplicationId :=
  inferInstanceAs (Std.TransCmp (compareLex (compareOn fun a : ApplicationId => a.sortKey.1)
    (compareOn fun a => a.sortKey.2)))

instance : Std.LawfulEqOrd ApplicationId where
  eq_of_compare {a b} h := by
    obtain ⟨h₁, h₂⟩ := compareLex_eq_eq.1 h
    exact sortKey_injective (Prod.ext (Std.LawfulEqOrd.eq_of_compare h₁)
      (Std.LawfulEqOrd.eq_of_compare h₂))

end ApplicationId

end TaskGrid
