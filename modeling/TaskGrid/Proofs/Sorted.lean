import Mathlib.Algebra.GroupWithZero.Nat
import Mathlib.Data.List.Perm.Basic
import TaskGrid.Sorted.Map
import TaskGrid.Sorted.Set

/-!
# Counting in sorted maps and sets

What an insertion and an erasure do to the listing of a map as a whole, and so to sums over its
values and to its size: one entry more, or one entry less.  A map is made again from its listing.

* `SortedMap.entries_insert_perm`, `SortedMap.entries_perm_erase`: one entry more, one entry less.
* `SortedMap.ofList_entries`: the listing makes the map.
* `SortedSet.size_erase_add_one`: a member less.
-/

namespace TaskGrid

namespace SortedMap

variable {κ υ : Type} [Ord κ]

/-! ## Look-ups -/

theorem contains_iff {m : SortedMap κ υ} {k : κ} :
    m.contains k = true ↔ ∃ v, m.get? k = some v := by
  rw [contains, Option.isSome_iff_exists]

theorem contains_eq_false_iff {m : SortedMap κ υ} {k : κ} :
    m.contains k = false ↔ m.get? k = none := by
  rw [contains, Option.isSome_eq_false_iff, Option.isNone_iff_eq_none]

theorem get?_mapValues (m : SortedMap κ υ) (f : υ → υ) (k : κ) :
    (m.mapValues f).get? k = (m.get? k).map f := by
  show find k (m.entries.map fun e => (e.1, f e.2)) = (find k m.entries).map f
  induction m.entries with
  | nil => rfl
  | cons e l ih =>
    rw [List.map_cons, find, find, ih]
    split <;> rfl

/-! ## The listing -/

section Lawful

variable [Std.LawfulEqOrd κ]

theorem nodup_entries (m : SortedMap κ υ) : m.entries.Nodup :=
  m.sorted.imp fun {a b} h hab => by
    simp [hab, Std.ReflCmp.compare_self] at h

theorem nodup_keys (m : SortedMap κ υ) : m.keys.Nodup :=
  List.pairwise_map.mpr <| m.sorted.imp fun {a b} h hab => by
    simp [hab, Std.ReflCmp.compare_self] at h

theorem isEmpty_iff_get? {m : SortedMap κ υ} : m.isEmpty = true ↔ ∀ k, m.get? k = none := by
  rw [isEmpty, List.isEmpty_iff]
  constructor
  · intro h k
    rw [get?, h]
    rfl
  · intro h
    refine List.eq_nil_iff_forall_not_mem.mpr ?_
    intro e he
    have hk : m.get? e.1 = some e.2 := mem_entries_iff.mp he
    rw [h e.1] at hk
    cases hk

/-- A key is not listed again. -/
theorem find_eq_none_of_pairwise {e : κ × υ} {l : List (κ × υ)}
    (h : (e :: l).Pairwise fun a b => compare a.1 b.1 = .lt) : find e.1 l = none := by
  obtain ⟨he, hl⟩ := List.pairwise_cons.mp h
  refine Option.eq_none_iff_forall_ne_some.mpr fun v hv => ?_
  have hlt := he _ ((find_eq_some_iff hl).mp hv)
  simp [Std.ReflCmp.compare_self] at hlt

variable [DecidableEq κ]

/-- An erasure removes one entry, where there is one. -/
theorem entries_perm_erase {m : SortedMap κ υ} {k : κ} {v : υ} (h : m.get? k = some v) :
    m.entries.Perm ((k, v) :: (m.erase k).entries) := by
  have hnot : (k, v) ∉ (m.erase k).entries := by
    intro hm
    have hk := mem_entries_iff.mp hm
    rw [get?_erase_self] at hk
    cases hk
  refine (List.perm_ext_iff_of_nodup (nodup_entries _)
    (List.nodup_cons.mpr ⟨hnot, nodup_entries _⟩)).mpr ?_
  intro e
  obtain ⟨k', v'⟩ := e
  rw [List.mem_cons, mem_entries_iff, mem_entries_iff, get?_erase]
  by_cases hk : k' = k
  · subst hk
    simp [h, eq_comm]
  · simp [hk]

theorem sum_values_erase {m : SortedMap κ υ} {k : κ} {v : υ} (f : υ → Nat) (h : m.get? k = some v) :
    (m.values.map f).sum = f v + ((m.erase k).values.map f).sum := by
  have hp := (((entries_perm_erase h).map Prod.snd).map f).sum_nat
  simpa only [values, List.map_cons, List.sum_cons] using hp

end Lawful

section Ordered

variable [Std.TransOrd κ] [Std.LawfulEqOrd κ]

/-- What a change does to the values that are not there does not matter. -/
theorem modify_congr {m : SortedMap κ υ} {k : κ} {v : υ} {f g : υ → υ} (h : m.get? k = some v)
    (hv : f v = g v) : m.modify k f = m.modify k g := by
  unfold modify
  rw [h]
  dsimp only
  rw [hv]

variable [DecidableEq κ]

/-- A new key adds one entry. -/
theorem entries_insert_perm {m : SortedMap κ υ} {k : κ} (v : υ) (h : m.get? k = none) :
    (m.insert k v).entries.Perm ((k, v) :: m.entries) := by
  have hnot : (k, v) ∉ m.entries := by
    intro hm
    rw [mem_entries_iff.mp hm] at h
    cases h
  refine (List.perm_ext_iff_of_nodup (nodup_entries _)
    (List.nodup_cons.mpr ⟨hnot, nodup_entries m⟩)).mpr ?_
  intro e
  obtain ⟨k', v'⟩ := e
  rw [List.mem_cons, mem_entries_iff, mem_entries_iff, get?_insert]
  by_cases hk : k' = k
  · subst hk
    simp [h, eq_comm]
  · simp [hk]

/-- Every entry of a listing replaces what was there. -/
theorem get?_foldl_insert {l : List (κ × υ)} (hl : l.Pairwise fun a b => compare a.1 b.1 = .lt)
    (m : SortedMap κ υ) (k : κ) :
    (l.foldl (fun m e => m.insert e.1 e.2) m).get? k = (find k l).or (m.get? k) := by
  induction l generalizing m with
  | nil => rfl
  | cons e l ih =>
    rw [List.foldl_cons, ih (List.pairwise_cons.mp hl).2, get?_insert]
    by_cases hk : k = e.1
    · subst hk
      simp [find, find_eq_none_of_pairwise hl]
    · have hne : compare k e.1 ≠ .eq := fun h => hk (Std.LawfulEqOrd.eq_of_compare h)
      simp [find, hk, hne]

/-- A map is made again from its listing. -/
theorem ofList_entries (m : SortedMap κ υ) : ofList m.entries = m :=
  ext_get? fun k => by
    rw [ofList, get?_foldl_insert m.sorted, get?_empty, Option.or_none]
    rfl

theorem sum_values_insert {m : SortedMap κ υ} {k : κ} (f : υ → Nat) (v : υ) (h : m.get? k = none) :
    ((m.insert k v).values.map f).sum = f v + (m.values.map f).sum := by
  have hp := (((entries_insert_perm v h).map Prod.snd).map f).sum_nat
  simpa only [values, List.map_cons, List.sum_cons] using hp

theorem size_insert_of_get?_none {m : SortedMap κ υ} {k : κ} (v : υ) (h : m.get? k = none) :
    (m.insert k v).size = m.size + 1 := (entries_insert_perm v h).length_eq

end Ordered

end SortedMap

namespace SortedSet

variable {α : Type} [Ord α] [Std.LawfulEqOrd α]

theorem nodup_toList (s : SortedSet α) : s.toList.Nodup :=
  s.sorted.imp fun {a b} h hab => by
    simp [hab, Std.ReflCmp.compare_self] at h

theorem size_erase_add_one [DecidableEq α] {s : SortedSet α} {a : α} (h : a ∈ s) :
    (s.erase a).size + 1 = s.size := by
  have hf : (s.erase a).toList = s.toList.erase a := by
    rw [(nodup_toList s).erase_eq_filter]
    exact List.filter_congr fun b _ => by rw [decide_not, bne, beq_eq_decide]
  have hpos : 0 < s.toList.length := List.length_pos_of_mem h
  rw [size, size, hf, List.length_erase_of_mem h]
  omega

theorem mem_foldl_union [Std.TransOrd α] {β : Type} (f : β → SortedSet α) (l : List β)
    (s : SortedSet α) (a : α) :
    a ∈ l.foldl (fun s b => s.union (f b)) s ↔ a ∈ s ∨ ∃ b ∈ l, a ∈ f b := by
  induction l generalizing s with
  | nil => simp
  | cons b l ih => simp [ih, or_assoc]

end SortedSet

end TaskGrid
