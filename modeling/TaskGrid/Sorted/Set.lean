/-!
# Finite sets kept in order

A `SortedSet` lists its members in strictly increasing order.  As with `SortedMap`, the listing
is determined by membership (`SortedSet.ext_mem`), so equal sets are equal values and a listing
of a set needs no further sorting.

## Main statements

* `mem_insert`, `mem_erase`, `mem_union`: membership after each operation.
* `ext_mem`: sets with the same members are equal.
-/

namespace TaskGrid

/-- A finite set of `α`, listed in strictly increasing order. -/
structure SortedSet (α : Type) [Ord α] where
  /-- The members, in order. -/
  toList : List α
  /-- The members increase strictly. -/
  sorted : toList.Pairwise fun a b => compare a b = .lt

namespace SortedSet

variable {α : Type} [Ord α]

/-! ## Operations on the listing -/

/-- The listing with `a` at its place. -/
def place (a : α) : List α → List α
  | [] => [a]
  | b :: r =>
    match compare a b with
    | .lt => a :: b :: r
    | .eq => b :: r
    | .gt => b :: place a r

section Listing

variable [Std.LawfulEqOrd α]

theorem mem_place {a x : α} {l : List α} : x ∈ place a l ↔ x = a ∨ x ∈ l := by
  induction l with
  | nil => simp [place]
  | cons b r ih =>
    simp only [place]
    split
    · simp
    · next h =>
      obtain rfl : a = b := Std.LawfulEqOrd.eq_of_compare h
      simp
    · simp only [List.mem_cons, ih]
      exact ⟨fun h => h.elim (fun h => .inr (.inl h)) (·.imp_right .inr),
        fun h => h.elim (fun h => .inr (.inl h)) (·.imp_right .inr)⟩

theorem pairwise_place [Std.TransOrd α] (a : α) {l : List α}
    (h : l.Pairwise fun a b => compare a b = .lt) :
    (place a l).Pairwise fun a b => compare a b = .lt := by
  induction l with
  | nil => simp [place]
  | cons b r ih =>
    obtain ⟨hb, hr⟩ := List.pairwise_cons.1 h
    simp only [place]
    split
    · next hlt =>
      refine List.pairwise_cons.2 ⟨fun x hx => ?_, h⟩
      rcases List.mem_cons.1 hx with rfl | hx
      · exact hlt
      · exact Std.TransCmp.lt_trans hlt (hb x hx)
    · exact h
    · next hgt =>
      refine List.pairwise_cons.2 ⟨fun x hx => ?_, ih hr⟩
      rcases mem_place.1 hx with rfl | hx
      · exact Std.OrientedCmp.lt_of_gt hgt
      · exact hb x hx

end Listing

/-! ## The set -/

/-- The set without members. -/
def empty : SortedSet α := ⟨[], .nil⟩

instance : EmptyCollection (SortedSet α) := ⟨empty⟩

instance : Inhabited (SortedSet α) := ⟨empty⟩

instance : Membership α (SortedSet α) := ⟨fun s a => a ∈ s.toList⟩

instance [DecidableEq α] : DecidableEq (SortedSet α) := fun a b =>
  decidable_of_iff (a.toList = b.toList) (by cases a; cases b; simp)

instance [DecidableEq α] (a : α) (s : SortedSet α) : Decidable (a ∈ s) :=
  inferInstanceAs (Decidable (a ∈ s.toList))

/-- The number of members. -/
def size (s : SortedSet α) : Nat := s.toList.length

/-- Whether there is no member. -/
def isEmpty (s : SortedSet α) : Bool := s.toList.isEmpty

/-- The members that pass a test. -/
def filter (s : SortedSet α) (p : α → Bool) : SortedSet α := ⟨s.toList.filter p, s.sorted.filter p⟩

/-- The set without `a`. -/
def erase [DecidableEq α] (s : SortedSet α) (a : α) : SortedSet α := s.filter fun b => b ≠ a

section Ordered

variable [Std.TransOrd α] [Std.LawfulEqOrd α]

/-- The set with `a`. -/
def insert (s : SortedSet α) (a : α) : SortedSet α := ⟨place a s.toList, pairwise_place a s.sorted⟩

/-- The set with one member. -/
def singleton (a : α) : SortedSet α := empty.insert a

/-- The set with every member of a list. -/
def insertAll (s : SortedSet α) (l : List α) : SortedSet α := l.foldl insert s

/-- The members of a list, each once. -/
def ofList (l : List α) : SortedSet α := empty.insertAll l

/-- The members of either set. -/
def union (s t : SortedSet α) : SortedSet α := s.insertAll t.toList

end Ordered

/-! ## Membership -/

theorem mem_def {a : α} {s : SortedSet α} : a ∈ s ↔ a ∈ s.toList := .rfl

@[simp] theorem mem_toList {a : α} {s : SortedSet α} : a ∈ s.toList ↔ a ∈ s := .rfl

@[simp] theorem not_mem_empty (a : α) : a ∉ (empty : SortedSet α) := List.not_mem_nil

@[simp] theorem mem_filter {a : α} {s : SortedSet α} {p : α → Bool} :
    a ∈ s.filter p ↔ a ∈ s ∧ p a = true := List.mem_filter

@[simp] theorem mem_erase [DecidableEq α] {a b : α} {s : SortedSet α} :
    a ∈ s.erase b ↔ a ∈ s ∧ a ≠ b := by simp [erase]

theorem isEmpty_iff {s : SortedSet α} : s.isEmpty = true ↔ ∀ a, a ∉ s := by
  rw [isEmpty, List.isEmpty_iff, List.eq_nil_iff_forall_not_mem]
  rfl

section Ordered

variable [Std.TransOrd α] [Std.LawfulEqOrd α]

@[simp] theorem mem_insert {a b : α} {s : SortedSet α} : a ∈ s.insert b ↔ a = b ∨ a ∈ s := mem_place

@[simp] theorem mem_insertAll {a : α} {s : SortedSet α} {l : List α} :
    a ∈ s.insertAll l ↔ a ∈ s ∨ a ∈ l := by
  induction l generalizing s with
  | nil => simp [insertAll]
  | cons b l ih =>
    have : s.insertAll (b :: l) = (s.insert b).insertAll l := rfl
    rw [this, ih, mem_insert, List.mem_cons]
    exact ⟨fun h => by rcases h with (h | h) | h <;> simp [h],
      fun h => by rcases h with h | h | h <;> simp [h]⟩

@[simp] theorem mem_ofList {a : α} {l : List α} : a ∈ ofList l ↔ a ∈ l := by simp [ofList]

@[simp] theorem mem_union {a : α} {s t : SortedSet α} : a ∈ s.union t ↔ a ∈ s ∨ a ∈ t := by
  simp [union]

theorem toList_ext {l r : List α} (hl : l.Pairwise fun a b => compare a b = .lt)
    (hr : r.Pairwise fun a b => compare a b = .lt) (h : ∀ x, x ∈ l ↔ x ∈ r) : l = r := by
  induction l generalizing r with
  | nil =>
    cases r with
    | nil => rfl
    | cons e r => exact absurd ((h e).2 (List.mem_cons_self ..)) (by simp)
  | cons a l ih =>
    cases r with
    | nil => exact absurd ((h a).1 (List.mem_cons_self ..)) (by simp)
    | cons b r =>
      obtain ⟨ha, hl'⟩ := List.pairwise_cons.1 hl
      obtain ⟨hb, hr'⟩ := List.pairwise_cons.1 hr
      have self (x : α) : compare x x ≠ .lt := by simp [Std.ReflCmp.compare_self]
      have hab : a = b := by
        rcases List.mem_cons.1 ((h a).1 (List.mem_cons_self ..)) with hm | hm
        · exact hm
        · rcases List.mem_cons.1 ((h b).2 (List.mem_cons_self ..)) with hm' | hm'
          · exact hm'.symm
          · exact absurd (Std.TransCmp.lt_trans (hb a hm) (ha b hm')) (self _)
      subst hab
      have hn (l' : List α) (hl' : ∀ x ∈ l', compare a x = .lt) : a ∉ l' := fun hm =>
        self _ (hl' a hm)
      congr 1
      refine ih hl' hr' fun x => ?_
      have hx := h x
      simp only [List.mem_cons] at hx
      by_cases hxa : x = a
      · subst hxa
        simp [hn l ha, hn r hb]
      · simpa [hxa] using hx

/-- Sets with the same members are equal. -/
theorem ext_mem {s t : SortedSet α} (h : ∀ a, a ∈ s ↔ a ∈ t) : s = t := by
  obtain ⟨l, hl⟩ := s
  obtain ⟨r, hr⟩ := t
  have : l = r := toList_ext hl hr h
  subst this
  rfl

end Ordered

end SortedSet

end TaskGrid
