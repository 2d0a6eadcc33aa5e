/-!
# Unit counts

Amounts of capacity are counts of at most `Units.limit`, the greatest 32-bit number.  Adding
saturates there; subtracting is only meaningful when enough is left, which callers check first.
-/

namespace TaskGrid

/-- A unit count, between zero and `2 ^ 32 - 1`. -/
@[ext] structure Units where
  /-- The number of units. -/
  count : Nat
  /-- The number fits in 32 bits. -/
  bounded : count ≤ 4294967295 := by omega
  deriving DecidableEq

namespace Units

/-- The greatest count. -/
def limit : Nat := 4294967295

instance : OfNat Units 0 := ⟨⟨0, by omega⟩⟩

instance : OfNat Units 1 := ⟨⟨1, by omega⟩⟩

instance : Inhabited Units := ⟨0⟩

/-- The count `n`, if it is one. -/
def ofNat? (n : Nat) : Option Units := if h : n ≤ 4294967295 then some ⟨n, h⟩ else none

/-- The sum, or the limit where the sum is beyond it. -/
def add (a b : Units) : Units := ⟨min (a.count + b.count) 4294967295, by omega⟩

/-- What is left of `a` after taking `b`, nothing if `b` is more. -/
def sub (a b : Units) : Units := ⟨a.count - b.count, by have := a.bounded; omega⟩

instance : Add Units := ⟨add⟩

instance : Sub Units := ⟨sub⟩

instance : LE Units := ⟨fun a b => a.count ≤ b.count⟩

instance : LT Units := ⟨fun a b => a.count < b.count⟩

instance (a b : Units) : Decidable (a ≤ b) := inferInstanceAs (Decidable (a.count ≤ b.count))

instance (a b : Units) : Decidable (a < b) := inferInstanceAs (Decidable (a.count < b.count))

@[simp] theorem count_zero : (0 : Units).count = 0 := rfl

@[simp] theorem count_one : (1 : Units).count = 1 := rfl

@[simp] theorem count_add (a b : Units) : (a + b).count = min (a.count + b.count) 4294967295 := rfl

@[simp] theorem count_sub (a b : Units) : (a - b).count = a.count - b.count := rfl

theorem le_iff {a b : Units} : a ≤ b ↔ a.count ≤ b.count := .rfl

theorem lt_iff {a b : Units} : a < b ↔ a.count < b.count := .rfl

end Units

end TaskGrid
