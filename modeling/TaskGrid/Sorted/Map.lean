/-!
# Finite maps kept in key order

A `SortedMap` is the list of its entries in strictly increasing key order.  Its listing is
therefore determined by its look-ups, and two maps with the same look-ups are equal values
(`SortedMap.ext_get?`): a statement that some operation "changes nothing" is an equation.

## Main statements

* `get?_insert`, `get?_erase`: what each operation does to a look-up.
* `mem_entries_iff`: the listed entries are exactly the look-ups that succeed.
* `ext_get?`: equal look-ups make equal maps.
-/

namespace TaskGrid

/-- A finite map from `κ` to `υ`, listed in strictly increasing key order. -/
structure SortedMap (κ υ : Type) [Ord κ] where
  /-- The entries, in key order. -/
  entries : List (κ × υ)
  /-- The keys increase strictly. -/
  sorted : entries.Pairwise fun a b => compare a.1 b.1 = .lt

namespace SortedMap

variable {κ υ : Type} [Ord κ]

/-! ## Operations on the listing -/

/-- The value listed under `k`. -/
def find (k : κ) : List (κ × υ) → Option υ
  | [] => none
  | e :: r => if compare k e.1 = .eq then some e.2 else find k r

/-- The listing with `v` under `k`, in place of what was there. -/
def place (k : κ) (v : υ) : List (κ × υ) → List (κ × υ)
  | [] => [(k, v)]
  | e :: r =>
    match compare k e.1 with
    | .lt => (k, v) :: e :: r
    | .eq => (k, v) :: r
    | .gt => e :: place k v r

theorem mem_place {k : κ} {v : υ} {x : κ × υ} {l : List (κ × υ)} (h : x ∈ place k v l) :
    x = (k, v) ∨ x ∈ l := by
  induction l with
  | nil => simpa [place] using h
  | cons e r ih =>
    simp only [place] at h
    split at h
    · simpa using h
    · simp only [List.mem_cons] at h ⊢
      exact h.imp_right .inr
    · simp only [List.mem_cons] at h ⊢
      rcases h with h | h
      · exact .inr (.inl h)
      · exact (ih h).imp_right .inr

theorem pairwise_place [Std.TransOrd κ] [Std.LawfulEqOrd κ] (k : κ) (v : υ) {l : List (κ × υ)}
    (h : l.Pairwise fun a b => compare a.1 b.1 = .lt) :
    (place k v l).Pairwise fun a b => compare a.1 b.1 = .lt := by
  induction l with
  | nil => simp [place]
  | cons e r ih =>
    obtain ⟨he, hr⟩ := List.pairwise_cons.1 h
    simp only [place]
    split
    · next hlt =>
      refine List.pairwise_cons.2 ⟨fun x hx => ?_, h⟩
      rcases List.mem_cons.1 hx with rfl | hx
      · exact hlt
      · exact Std.TransCmp.lt_trans hlt (he x hx)
    · next heq =>
      obtain rfl : k = e.1 := Std.LawfulEqOrd.eq_of_compare heq
      exact List.pairwise_cons.2 ⟨fun x hx => he x hx, hr⟩
    · next hgt =>
      refine List.pairwise_cons.2 ⟨fun x hx => ?_, ih hr⟩
      rcases mem_place hx with rfl | hx
      · exact Std.OrientedCmp.lt_of_gt hgt
      · exact he x hx

/-! ## The map -/

/-- The map without entries. -/
def empty : SortedMap κ υ := ⟨[], .nil⟩

instance : EmptyCollection (SortedMap κ υ) := ⟨empty⟩

instance : Inhabited (SortedMap κ υ) := ⟨empty⟩

instance [DecidableEq κ] [DecidableEq υ] : DecidableEq (SortedMap κ υ) := fun a b =>
  decidable_of_iff (a.entries = b.entries) (by cases a; cases b; simp)

/-- The value under `k`. -/
def get? (m : SortedMap κ υ) (k : κ) : Option υ := find k m.entries

/-- Whether `k` has a value. -/
def contains (m : SortedMap κ υ) (k : κ) : Bool := (m.get? k).isSome

/-- The map with `v` under `k`. -/
def insert [Std.TransOrd κ] [Std.LawfulEqOrd κ] (m : SortedMap κ υ) (k : κ) (v : υ) :
    SortedMap κ υ := ⟨place k v m.entries, pairwise_place k v m.sorted⟩

/-- The map without `k`. -/
def erase (m : SortedMap κ υ) (k : κ) : SortedMap κ υ :=
  ⟨m.entries.filter fun e => compare k e.1 ≠ .eq, m.sorted.filter _⟩

/-- The map with `f` applied to the value under `k`, if there is one. -/
def modify [Std.TransOrd κ] [Std.LawfulEqOrd κ] (m : SortedMap κ υ) (k : κ) (f : υ → υ) :
    SortedMap κ υ :=
  match m.get? k with
  | some v => m.insert k (f v)
  | none => m

/-- Every value changed by `f`. -/
def mapValues (m : SortedMap κ υ) (f : υ → υ) : SortedMap κ υ :=
  ⟨m.entries.map fun e => (e.1, f e.2), List.pairwise_map.2 m.sorted⟩

/-- The keys, in order. -/
def keys (m : SortedMap κ υ) : List κ := m.entries.map Prod.fst

/-- The values, in the order of their keys. -/
def values (m : SortedMap κ υ) : List υ := m.entries.map Prod.snd

/-- The number of keys. -/
def size (m : SortedMap κ υ) : Nat := m.entries.length

/-- Whether there is no key. -/
def isEmpty (m : SortedMap κ υ) : Bool := m.entries.isEmpty

/-- The map of a list of entries; a later entry replaces an earlier one of the same key. -/
def ofList [Std.TransOrd κ] [Std.LawfulEqOrd κ] (l : List (κ × υ)) : SortedMap κ υ :=
  l.foldl (fun m e => m.insert e.1 e.2) empty

/-! ## Look-ups -/

@[simp] theorem get?_empty (k : κ) : (empty : SortedMap κ υ).get? k = none := rfl

theorem find_filter_self (k : κ) (l : List (κ × υ)) :
    find k (l.filter fun e => compare k e.1 ≠ .eq) = none := by
  induction l with
  | nil => rfl
  | cons e r ih =>
    by_cases h : compare k e.1 = .eq
    · simpa [List.filter_cons, h] using ih
    · simpa [List.filter_cons, find, h] using ih

@[simp] theorem get?_erase_self (m : SortedMap κ υ) (k : κ) : (m.erase k).get? k = none :=
  find_filter_self k m.entries

section Lawful

variable [Std.LawfulEqOrd κ]

theorem find_place_self (k : κ) (v : υ) (l : List (κ × υ)) : find k (place k v l) = some v := by
  induction l with
  | nil => simp [place, find]
  | cons e r ih =>
    simp only [place]
    split
    · simp [find]
    · simp [find]
    · next h => simp [find, h, ih]

theorem find_place_of_ne {k k' : κ} (v : υ) (l : List (κ × υ)) (h : k' ≠ k) :
    find k' (place k v l) = find k' l := by
  have hk : compare k' k ≠ .eq := fun e => h (Std.LawfulEqOrd.eq_of_compare e)
  induction l with
  | nil => simp [place, find, hk]
  | cons e r ih =>
    simp only [place]
    split
    · simp [find, hk]
    · next heq =>
      have : e.1 = k := (Std.LawfulEqOrd.eq_of_compare heq).symm
      simp [find, hk, this]
    · simp [find, ih]

theorem find_filter_of_ne {k k' : κ} (l : List (κ × υ)) (h : k' ≠ k) :
    find k' (l.filter fun e => compare k e.1 ≠ .eq) = find k' l := by
  induction l with
  | nil => rfl
  | cons e r ih =>
    by_cases he : compare k e.1 = .eq
    · have hne : compare k' e.1 ≠ .eq := fun c =>
        h ((Std.LawfulEqOrd.eq_of_compare c).trans (Std.LawfulEqOrd.eq_of_compare he).symm)
      simpa [List.filter_cons, find, he, hne] using ih
    · by_cases hc : compare k' e.1 = .eq <;> simp_all [find]

theorem get?_erase_of_ne (m : SortedMap κ υ) {k k' : κ} (h : k' ≠ k) :
    (m.erase k).get? k' = m.get? k' := find_filter_of_ne m.entries h

/-- An erasure is seen at its own key and nowhere else. -/
theorem get?_erase [DecidableEq κ] (m : SortedMap κ υ) (k k' : κ) :
    (m.erase k).get? k' = if k' = k then none else m.get? k' := by
  split
  · next h => rw [h, get?_erase_self]
  · next h => exact get?_erase_of_ne m h

end Lawful

section Ordered

variable [Std.TransOrd κ] [Std.LawfulEqOrd κ]

@[simp] theorem get?_insert_self (m : SortedMap κ υ) (k : κ) (v : υ) :
    (m.insert k v).get? k = some v := find_place_self k v m.entries

theorem get?_insert_of_ne (m : SortedMap κ υ) {k k' : κ} (v : υ) (h : k' ≠ k) :
    (m.insert k v).get? k' = m.get? k' := find_place_of_ne v m.entries h

/-- An insertion is seen at its own key and nowhere else. -/
theorem get?_insert [DecidableEq κ] (m : SortedMap κ υ) (k k' : κ) (v : υ) :
    (m.insert k v).get? k' = if k' = k then some v else m.get? k' := by
  split
  · next h => rw [h, get?_insert_self]
  · next h => exact get?_insert_of_ne m v h

/-- A change is seen at its own key and nowhere else. -/
theorem get?_modify [DecidableEq κ] (m : SortedMap κ υ) (k k' : κ) (f : υ → υ) :
    (m.modify k f).get? k' = if k' = k then (m.get? k).map f else m.get? k' := by
  unfold modify
  cases h : m.get? k with
  | none =>
    by_cases hk : k' = k
    · simp [hk, h]
    · simp [hk]
  | some v => rw [get?_insert]; rfl

end Ordered

/-! ## The listing and the look-ups -/

section Lawful

variable [Std.LawfulEqOrd κ]

theorem find_eq_some_iff {k : κ} {v : υ} {l : List (κ × υ)}
    (h : l.Pairwise fun a b => compare a.1 b.1 = .lt) : find k l = some v ↔ (k, v) ∈ l := by
  induction l with
  | nil => simp [find]
  | cons e r ih =>
    obtain ⟨he, hr⟩ := List.pairwise_cons.1 h
    by_cases hc : compare k e.1 = .eq
    · obtain rfl : k = e.1 := Std.LawfulEqOrd.eq_of_compare hc
      have hn : (e.1, v) ∉ r := fun hm => by
        have := he _ hm
        simp [Std.ReflCmp.compare_self] at this
      simp only [find, hc, if_true, Option.some.injEq, List.mem_cons, hn, or_false]
      exact ⟨fun hv => by rw [← hv], fun hv => by rw [← hv]⟩
    · have hne : (k, v) ≠ e := fun hv => hc (by rw [← hv]; exact Std.ReflCmp.compare_self)
      simp [find, hc, hne, ih hr]

/-- The listed entries are exactly the look-ups that succeed. -/
theorem mem_entries_iff {m : SortedMap κ υ} {k : κ} {v : υ} :
    (k, v) ∈ m.entries ↔ m.get? k = some v := (find_eq_some_iff m.sorted).symm

theorem mem_keys_iff {m : SortedMap κ υ} {k : κ} : k ∈ m.keys ↔ m.contains k = true := by
  simp only [keys, List.mem_map, contains, Option.isSome_iff_exists, ← mem_entries_iff]
  exact ⟨fun ⟨e, he, hk⟩ => ⟨e.2, hk ▸ he⟩, fun ⟨v, hv⟩ => ⟨(k, v), hv, rfl⟩⟩

end Lawful

section Ordered

variable [Std.TransOrd κ] [Std.LawfulEqOrd κ]

theorem entries_ext {l r : List (κ × υ)} (hl : l.Pairwise fun a b => compare a.1 b.1 = .lt)
    (hr : r.Pairwise fun a b => compare a.1 b.1 = .lt) (h : ∀ x, x ∈ l ↔ x ∈ r) : l = r := by
  induction l generalizing r with
  | nil =>
    cases r with
    | nil => rfl
    | cons e r => exact absurd ((h e).2 (List.mem_cons_self ..)) (by simp)
  | cons a l ih =>
    cases r with
    | nil => exact absurd ((h a).1 (List.mem_cons_self ..)) (by simp)
    | cons b r =>
      obtain ⟨ha, hl'⟩ := List.pairwise_cons.1 hl
      obtain ⟨hb, hr'⟩ := List.pairwise_cons.1 hr
      have self (x : κ) : compare x x ≠ .lt := by simp [Std.ReflCmp.compare_self]
      have hab : a = b := by
        rcases List.mem_cons.1 ((h a).1 (List.mem_cons_self ..)) with hm | hm
        · exact hm
        · rcases List.mem_cons.1 ((h b).2 (List.mem_cons_self ..)) with hm' | hm'
          · exact hm'.symm
          · exact absurd (Std.TransCmp.lt_trans (hb a hm) (ha b hm')) (self _)
      subst hab
      have hn (l' : List (κ × υ)) (hl' : ∀ x ∈ l', compare a.1 x.1 = .lt) : a ∉ l' := fun hm =>
        self _ (hl' a hm)
      congr 1
      refine ih hl' hr' fun x => ?_
      have hx := h x
      simp only [List.mem_cons] at hx
      by_cases hxa : x = a
      · subst hxa
        simp [hn l ha, hn r hb]
      · simpa [hxa] using hx

/-- Equal look-ups make equal maps. -/
theorem ext_get? {m n : SortedMap κ υ} (h : ∀ k, m.get? k = n.get? k) : m = n := by
  obtain ⟨l, hl⟩ := m
  obtain ⟨r, hr⟩ := n
  have : l = r := entries_ext hl hr fun x => by
    rw [show x = (x.1, x.2) from rfl, ← find_eq_some_iff hl, ← find_eq_some_iff hr]
    have hx : find x.1 l = find x.1 r := h x.1
    rw [hx]
  subst this
  rfl

end Ordered

end SortedMap

end TaskGrid
