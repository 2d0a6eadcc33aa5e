import TaskGrid.Proofs.Sorted
import TaskGrid.Worker.Basic

/-!
# The books of a worker

What a worker offers is free or reserved, category by category.  Reserving, releasing and
withdrawing keep the books balanced; so does an offer, as long as the sum of what is offered stays
within the limit of a unit count, at which sums saturate.

* `Worker.reservedIn`: what the bound actions hold together.
* `Worker.Balanced`: free and reserved units make up the total.
* `Worker.balanced_offer`, `Worker.balanced_reserve`, `Worker.balanced_release`: what keeps it.
-/

namespace TaskGrid

namespace Capacity

variable {a b d : Capacity}

theorem count_get_merge (a b : Capacity) (c : Category) :
    ((a.merge b).get c).count = min ((a.get c).count + (b.get c).count) Units.limit := by
  rw [get_merge, Units.count_add]
  rfl

/-- A difference, with what was taken, gives back what there was. -/
theorem count_get_of_subtract (h : a.subtract b = .ok d) (c : Category) :
    (d.get c).count + (b.get c).count = (a.get c).count := by
  unfold subtract at h
  split at h
  · cases h
  · next hs =>
    cases h
    have hle := contains_iff.mp (shortage?_eq_none_iff.mp hs) c
    rw [get_ofFn, Units.count_sub]
    rw [Units.le_iff] at hle
    omega

theorem contains_of_subtract (h : a.subtract b = .ok d) : a.contains b = true := by
  unfold subtract at h
  split at h
  · cases h
  · next hs => exact shortage?_eq_none_iff.mp hs

theorem not_contains_of_subtract {s : Shortage} (h : a.subtract b = .error s) :
    a.contains b = false := by
  rw [Bool.eq_false_iff, ne_eq]
  intro hc
  rw [subtract_of_contains hc] at h
  cases h

/-- Nothing that does not fit fits into a part. -/
theorem not_contains_of_le {need : Capacity} (hle : ∀ c, d.get c ≤ a.get c)
    (h : a.contains need = false) : d.contains need = false := by
  rw [Bool.eq_false_iff, ne_eq, contains_iff] at h ⊢
  exact fun hd => h fun c => Nat.le_trans (hd c) (hle c)

end Capacity

namespace Worker

/-- The units of a category that the bound actions hold together. -/
def reservedIn (w : Worker) (c : Category) : Nat :=
  (w.reservations.values.map fun held => (held.get c).count).sum

/-- In every category, what is free and what is reserved make up the total. -/
def Balanced (w : Worker) : Prop :=
  ∀ c, (w.free.get c).count + w.reservedIn c = (w.total.get c).count

/-! ## What the operations do -/

/-- What an offer adds for actions: all of it, less the unit that the orchestration node keeps. -/
def added (w : Worker) (keeps : Bool) (offered : Capacity) : Capacity :=
  if keeps ∧ w.withheld.get .primary = 0 ∧ offered.get .primary ≠ 0 then
    offered.set .primary (offered.get .primary - 1)
  else offered

theorem count_added_le (w : Worker) (keeps : Bool) (offered : Capacity) (c : Category) :
    ((w.added keeps offered).get c).count ≤ (offered.get c).count := by
  unfold added
  split
  · rw [Capacity.get_set]
    split
    · next hc =>
      subst hc
      rw [Units.count_sub]
      omega
    · exact Nat.le_refl _
  · exact Nat.le_refl _

theorem free_offer (w : Worker) (keeps : Bool) (offered : Capacity) :
    (w.offer keeps offered).free = w.free.merge (w.added keeps offered) := by
  unfold offer added grow
  split <;> rfl

theorem total_offer (w : Worker) (keeps : Bool) (offered : Capacity) :
    (w.offer keeps offered).total = w.total.merge (w.added keeps offered) := by
  unfold offer added grow
  split <;> rfl

@[simp] theorem reservations_offer (w : Worker) (keeps : Bool) (offered : Capacity) :
    (w.offer keeps offered).reservations = w.reservations := by
  unfold offer grow
  split <;> rfl

@[simp] theorem seq_offer (w : Worker) (keeps : Bool) (offered : Capacity) :
    (w.offer keeps offered).seq = w.seq := by
  unfold offer grow
  split <;> rfl

@[simp] theorem removing_offer (w : Worker) (keeps : Bool) (offered : Capacity) :
    (w.offer keeps offered).removing = w.removing := by
  unfold offer grow
  split <;> rfl

/-- A reservation is made exactly by a worker that accepts and has enough. -/
theorem reserve?_eq_some_iff {w w' : Worker} {id : Nat} {need : Capacity} :
    w.reserve? id need = some w' ↔ w.removing = false ∧ ∃ free, w.free.subtract need = .ok free ∧
      w' = { w with free, reservations := w.reservations.insert id need } := by
  unfold reserve?
  cases w.removing with
  | true => simp
  | false => cases w.free.subtract need <;> simp [eq_comm]

/-- A release gives back exactly what was held. -/
theorem release?_eq_some_iff {w w' : Worker} {id : Nat} :
    w.release? id = some w' ↔ ∃ held, w.reservations.get? id = some held ∧
      w' = { w with free := w.free.merge held, reservations := w.reservations.erase id } := by
  unfold release?
  cases w.reservations.get? id <;> simp [eq_comm]

theorem release?_eq_none_iff {w : Worker} {id : Nat} :
    w.release? id = none ↔ w.reservations.get? id = none := by
  rw [release?, Option.map_eq_none_iff]

/-! ## Balance -/

theorem Balanced.free_le {w : Worker} (h : w.Balanced) (c : Category) :
    w.free.get c ≤ w.total.get c := by
  rw [Units.le_iff, ← h c]
  exact Nat.le_add_right _ _

/-- A worker that just registered has nothing free and nothing reserved. -/
theorem balanced_new (seq : Nat) (adaptor : Adaptor) : ({ seq, adaptor } : Worker).Balanced :=
  fun c => by simp [reservedIn, SortedMap.values, SortedMap.empty]

/-- An offer keeps the books balanced where its sum with the total stays within the limit. -/
theorem balanced_offer {w : Worker} (h : w.Balanced) (keeps : Bool) {offered : Capacity}
    (hfit : ∀ c, (w.total.get c).count + (offered.get c).count ≤ Units.limit) :
    (w.offer keeps offered).Balanced := by
  intro c
  have hadd := w.count_added_le keeps offered c
  have hc := h c
  have hl := hfit c
  rw [free_offer, total_offer, reservedIn, reservations_offer, Capacity.count_get_merge,
    Capacity.count_get_merge]
  rw [reservedIn] at hc
  omega

theorem balanced_reserve {w w' : Worker} {id : Nat} {need : Capacity} (h : w.Balanced)
    (hnew : w.reservations.get? id = none) (hr : w.reserve? id need = some w') : w'.Balanced := by
  obtain ⟨-, free, hs, rfl⟩ := reserve?_eq_some_iff.mp hr
  intro c
  have hc := h c
  have hsub := Capacity.count_get_of_subtract hs c
  rw [reservedIn] at hc
  show (free.get c).count + ((w.reservations.insert id need).values.map _).sum =
    (w.total.get c).count
  rw [SortedMap.sum_values_insert (fun held => (held.get c).count) need hnew]
  omega

theorem balanced_release {w w' : Worker} {id : Nat} (h : w.Balanced)
    (hr : w.release? id = some w') : w'.Balanced := by
  obtain ⟨held, hheld, rfl⟩ := release?_eq_some_iff.mp hr
  intro c
  have hc := h c
  rw [reservedIn, SortedMap.sum_values_erase (fun held => (held.get c).count) hheld] at hc
  have hl := (w.total.get c).bounded
  show ((w.free.merge held).get c).count + ((w.reservations.erase id).values.map _).sum =
    (w.total.get c).count
  rw [Capacity.count_get_merge, Units.limit]
  omega

/-- Capacity that is free can be withdrawn without touching what is reserved. -/
theorem balanced_reduce {w : Worker} {c free total : Capacity} (h : w.Balanced)
    (hf : w.free.subtract c = .ok free) (ht : w.total.subtract c = .ok total) :
    ({ w with free, total } : Worker).Balanced := by
  intro k
  have hk := h k
  have h₁ := Capacity.count_get_of_subtract hf k
  have h₂ := Capacity.count_get_of_subtract ht k
  show (free.get k).count + w.reservedIn k = (total.get k).count
  omega

end Worker

end TaskGrid
