/-!
# Scores and ranks

A policy scores each candidate binding by a list of fields, the most significant first.  Fields
compare lexicographically and the greater is better; where all agree, the lower action identifier
wins.  A rank breaks the remaining ties: the worker that registered earlier, then the way to carry
out the action that is preferred.

Both orders are linear, so among candidates that differ in action, worker or implementation there
is exactly one best.
-/

namespace TaskGrid

/-- The score of a candidate binding. -/
structure Score where
  /-- The fields, the most significant first. -/
  fields : List Int
  /-- The action. -/
  action : Nat
  deriving DecidableEq

namespace Score

/-- The comparison of two scores; the greater is better. -/
def cmp (a b : Score) : Ordering := (compare a.fields b.fields).then (compare b.action a.action)

instance : Ord Score := ⟨cmp⟩

/-- Scores that compare as equal agree in everything. -/
theorem cmp_eq_eq_iff {a b : Score} : cmp a b = .eq ↔ a = b := by
  simp only [cmp, Ordering.then_eq_eq, Std.LawfulEqCmp.compare_eq_iff_eq]
  constructor
  · rintro ⟨h₁, h₂⟩
    cases a
    cases b
    simp_all
  · rintro rfl
    exact ⟨rfl, rfl⟩

end Score

/-- The rank of a candidate binding. -/
structure Rank where
  /-- The score. -/
  score : Score
  /-- The registration number of the worker. -/
  seq : Nat
  /-- The position of the implementation. -/
  implementation : Nat
  deriving DecidableEq

namespace Rank

/-- The comparison of two ranks; the greater is better. -/
def cmp (a b : Rank) : Ordering :=
  (a.score.cmp b.score).then
    ((compare b.seq a.seq).then (compare b.implementation a.implementation))

/-- Ranks that compare as equal agree in everything. -/
theorem cmp_eq_eq_iff {a b : Rank} : cmp a b = .eq ↔ a = b := by
  simp only [cmp, Ordering.then_eq_eq, Score.cmp_eq_eq_iff, Std.LawfulEqCmp.compare_eq_iff_eq]
  constructor
  · rintro ⟨h, h', h''⟩
    cases a
    cases b
    simp_all
  · rintro rfl
    exact ⟨rfl, rfl, rfl⟩

/-- Whether a rank is better than another. -/
def better (a b : Rank) : Bool := a.cmp b == .gt

end Rank

end TaskGrid
