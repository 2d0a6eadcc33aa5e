import TaskGrid.Proofs.Sorted
import TaskGrid.Wire.Capacity

/-!
# Capacities as tallies

A capacity is kept as a tally: a listing of the categories that hold units, in order.  A category
whose count reaches zero is struck from the listing, and one that is not listed counts as zero.  All
arithmetic is done entry by entry: a sum adds the entries of one tally to the other, a difference
first checks every entry of what is taken and then takes them one after the other.

So a tally says the same as four counts, but only because no way to make one leaves a zero in the
listing.  Then equal counts make equal tallies, and the sums and differences of tallies are those of
the counts.

* `Tally.Built`: the ways to make a tally.
* `Tally.Built.noZero`: none of them leaves a zero.
* `Tally.get_alter`: what a pass over a listing does to each count.
* `Tally.Built.arithmetic`: the laws of sums and differences, and that tallies are the capacities.
-/

namespace TaskGrid

/-! ## The order of the categories -/

/-- The place of a category in the order. -/
def Category.place : Category → Nat
  | cpu => 0
  | gpu => 1
  | fpga => 2
  | other => 3

instance : Ord Category := ⟨compareOn Category.place⟩

instance : Std.TransOrd Category := inferInstanceAs (Std.TransCmp (compareOn Category.place))

instance : Std.LawfulEqOrd Category where
  eq_of_compare {a b} h := by cases a <;> cases b <;> first | rfl | cases h

theorem Category.pairwise_all : all.Pairwise fun a b => compare a b = .lt := by decide

/-! ## Units -/

namespace Units

variable {a b c : Units}

theorem add_comm (a b : Units) : a + b = b + a := by
  ext
  rw [count_add, count_add, Nat.add_comm]

/-- Saturating sums are associative: either way the result is the sum or the limit. -/
theorem add_assoc (a b c : Units) : a + b + c = a + (b + c) := by
  ext
  simp only [count_add]
  omega

theorem add_sub_cancel (h : a.count + b.count ≤ limit) : a + b - b = a := by
  ext
  simp only [count_sub, count_add, limit] at h ⊢
  omega

theorem sub_add_cancel (h : b ≤ a) : a - b + b = a := by
  have := a.bounded
  ext
  simp only [le_iff, count_sub, count_add] at h ⊢
  omega

@[simp] theorem add_zero (a : Units) : a + 0 = a := by
  have := a.bounded
  ext
  simp only [count_add, count_zero]
  omega

@[simp] theorem zero_add (a : Units) : 0 + a = a := (add_comm 0 a).trans (add_zero a)

@[simp] theorem sub_zero (a : Units) : a - 0 = a := by
  ext
  simp

theorem zero_le (a : Units) : 0 ≤ a := Nat.zero_le _

end Units

/-! ## Tallies -/

/-- The categories that hold units, with their counts. -/
structure Tally where
  /-- The listing. -/
  units : SortedMap Category Units := .empty
  deriving DecidableEq

namespace Tally

/-- The tally without units. -/
def empty : Tally := {}

/-- The units of a category. -/
def get (t : Tally) (k : Category) : Units := (t.units.get? k).getD 0

/-- The tally with the units of one category replaced; without units it is struck. -/
def set (t : Tally) (k : Category) (u : Units) : Tally :=
  ⟨if u = 0 then t.units.erase k else t.units.insert k u⟩

/-- Units of the primary category only. -/
def cpus (u : Units) : Tally := empty.set .cpu u

/-- The tally after a pass over a listing, in which `f` combines the count of each listed category
with the units listed for it. -/
def alter (f : Units → Units → Units) (t : Tally) (l : List (Category × Units)) : Tally :=
  l.foldl (fun t e => t.set e.1 (f (t.get e.1) e.2)) t

/-- The tally of a list of amounts; amounts of one category are added. -/
def collect (l : List (Category × Units)) : Tally := empty.alter (· + ·) l

/-- The tally of a map, which may hold zeros. -/
def ofMap (m : SortedMap Category Units) : Tally := collect m.entries

/-- The sum of two tallies. -/
def merge (s t : Tally) : Tally := s.alter (· + ·) t.units.entries

/-- Whether every entry of `need` fits. -/
def contains (t need : Tally) : Bool := need.units.entries.all fun e => e.2 ≤ t.get e.1

/-- The first entry of `t` that exceeds `s`. -/
def shortage? (s t : Tally) : Option Shortage :=
  t.units.entries.findSome? fun e => if s.get e.1 < e.2 then some ⟨e.1, s.get e.1, e.2⟩ else none

/-- What is left once every entry of `t` is taken from `s`. -/
def less (s t : Tally) : Tally := s.alter (· - ·) t.units.entries

/-- Takes `t` from `s` in place: every entry is checked, and only then all are taken.  The second
part is the tally afterwards. -/
def take (s t : Tally) : Except Shortage Unit × Tally :=
  match s.shortage? t with
  | some e => (.error e, s)
  | none => (.ok (), s.less t)

/-- The difference, or the first entry that exceeds what there is. -/
def subtract (s t : Tally) : Except Shortage Tally :=
  match s.take t with
  | (.error e, _) => .error e
  | (.ok (), d) => .ok d

/-- Reads the fields of a written tally into a map, as they stand; of two fields of one category the
later counts. -/
def fields? (known : Nat) (m : SortedMap Category Units) :
    List (String × Json) → Option (SortedMap Category Units)
  | [] => some m
  | (name, v) :: r => do
    let k ← Category.ofName? name
    let u ← Wire.decode known v
    fields? known (m.insert k u) r

/-- Reads a written tally. -/
def read? (known : Nat) : Json → Option Tally
  | .obj fields => (fields? known .empty fields).map ofMap
  | _ => none

/-- The counts of a tally. -/
def capacity (t : Tally) : Capacity := .ofFn t.get

/-- The ways to make a tally. -/
inductive Built : Tally → Prop
  | empty : Built empty
  | cpus (u : Units) : Built (cpus u)
  | collect (l : List (Category × Units)) : Built (collect l)
  | ofMap (m : SortedMap Category Units) : Built (ofMap m)
  | read {known : Nat} {j : Json} {t : Tally} (h : read? known j = some t) : Built t
  | set {t : Tally} (ht : Built t) (k : Category) (u : Units) : Built (t.set k u)
  | merge {s t : Tally} (hs : Built s) (ht : Built t) : Built (s.merge t)
  | take {s t : Tally} (hs : Built s) (ht : Built t) : Built (s.take t).2
  | subtract {s t d : Tally} (hs : Built s) (ht : Built t) (h : s.subtract t = .ok d) : Built d

/-! ## No zeros -/

/-- Only categories with units are listed. -/
def NoZero (t : Tally) : Prop := ∀ k u, t.units.get? k = some u → u ≠ 0

variable {a b c d s t : Tally} {k : Category} {u : Units} {l : List (Category × Units)}
  {f : Units → Units → Units}

theorem noZero_empty : NoZero empty := fun _ _ h => nomatch h

/-- Striking a category at zero keeps zeros out. -/
theorem NoZero.set (ht : t.NoZero) (k : Category) (u : Units) : (t.set k u).NoZero := by
  intro k' u' h
  by_cases hu : u = 0
  · rw [Tally.set, if_pos hu, SortedMap.get?_erase] at h
    split at h
    · cases h
    · exact ht k' u' h
  · rw [Tally.set, if_neg hu, SortedMap.get?_insert] at h
    split at h
    · cases h
      exact hu
    · exact ht k' u' h

theorem NoZero.alter (ht : t.NoZero) (f : Units → Units → Units) (l : List (Category × Units)) :
    (t.alter f l).NoZero := by
  induction l generalizing t with
  | nil => exact ht
  | cons e l ih => exact ih (ht.set e.1 (f (t.get e.1) e.2))

theorem NoZero.merge (hs : s.NoZero) (t : Tally) : (s.merge t).NoZero := hs.alter _ _

theorem NoZero.less (hs : s.NoZero) (t : Tally) : (s.less t).NoZero := hs.alter _ _

theorem take_eq_of_shortage? {e : Shortage} (h : s.shortage? t = some e) :
    s.take t = (.error e, s) := by
  rw [take, h]

theorem take_eq_of_none (h : s.shortage? t = none) : s.take t = (.ok (), s.less t) := by
  rw [take, h]

theorem NoZero.take (hs : s.NoZero) (t : Tally) : (s.take t).2.NoZero := by
  cases h : s.shortage? t with
  | some e =>
    rw [take_eq_of_shortage? h]
    exact hs
  | none =>
    rw [take_eq_of_none h]
    exact hs.less t

theorem subtract_eq_ok_iff : s.subtract t = .ok d ↔ s.take t = (.ok (), d) := by
  unfold subtract
  rcases s.take t with ⟨⟨⟩ | ⟨⟩, x⟩ <;> simp

/-- No way to make a tally leaves a zero in it. -/
theorem Built.noZero (ht : t.Built) : t.NoZero := by
  induction ht with
  | empty => exact noZero_empty
  | cpus u => exact noZero_empty.set .cpu u
  | collect l => exact noZero_empty.alter _ l
  | ofMap m => exact noZero_empty.alter _ m.entries
  | @read known j t h =>
    cases j with
    | obj fields =>
      obtain ⟨m, -, rfl⟩ := Option.map_eq_some_iff.mp h
      exact noZero_empty.alter _ m.entries
    | _ => cases h
  | set _ k u ih => exact ih.set k u
  | merge _ _ ihs _ => exact ihs.merge _
  | take _ _ ihs _ => exact ihs.take _
  | @subtract s t d _ _ h ihs _ =>
    have hd := ihs.take t
    rwa [subtract_eq_ok_iff.mp h] at hd

/-! ## Counts -/

theorem get_set (t : Tally) (k k' : Category) (u : Units) :
    (t.set k u).get k' = if k' = k then u else t.get k' := by
  unfold get set
  by_cases hu : u = 0
  · rw [if_pos hu, SortedMap.get?_erase]
    split
    · exact hu.symm
    · rfl
  · rw [if_neg hu, SortedMap.get?_insert]
    split <;> rfl

/-- What is listed, where no zero is. -/
theorem NoZero.get?_eq_some_iff (ht : t.NoZero) :
    t.units.get? k = some u ↔ u ≠ 0 ∧ t.get k = u := by
  unfold get
  constructor
  · intro h
    exact ⟨ht k u h, by rw [h, Option.getD_some]⟩
  · rintro ⟨hu, rfl⟩
    cases h : t.units.get? k with
    | none => exact absurd (by rw [h, Option.getD_none]) hu
    | some v => rw [Option.getD_some]

/-- Tallies without zeros are equal if they agree on every category. -/
theorem NoZero.ext (hs : s.NoZero) (ht : t.NoZero) (h : ∀ k, s.get k = t.get k) : s = t := by
  have hunits : s.units = t.units := SortedMap.ext_get? fun k => Option.ext fun u => by
    rw [hs.get?_eq_some_iff, ht.get?_eq_some_iff, h]
  cases s
  cases t
  exact congrArg Tally.mk hunits

/-- A pass over a listing changes the count of each listed category once. -/
theorem get_alter (f : Units → Units → Units) (t : Tally)
    (hl : l.Pairwise fun a b => compare a.1 b.1 = .lt) (k : Category) :
    (t.alter f l).get k = (SortedMap.find k l).elim (t.get k) (f (t.get k)) := by
  induction l generalizing t with
  | nil => rfl
  | cons e l ih =>
    have hstep : (t.alter f (e :: l)).get k =
        ((t.set e.1 (f (t.get e.1) e.2)).alter f l).get k := rfl
    rw [hstep, ih _ (List.pairwise_cons.mp hl).2, get_set]
    by_cases hk : k = e.1
    · subst hk
      simp [SortedMap.find, SortedMap.find_eq_none_of_pairwise hl]
    · have hne : compare k e.1 ≠ .eq := fun h => hk (Std.LawfulEqOrd.eq_of_compare h)
      simp [SortedMap.find, hk, hne]

/-- A pass over another tally combines the counts of every category, if `f` leaves a count as it is
where nothing is listed. -/
theorem get_alter_units (hf : ∀ u, f u 0 = u) (s t : Tally) (k : Category) :
    (s.alter f t.units.entries).get k = f (s.get k) (t.get k) := by
  rw [get_alter f s t.units.sorted k]
  show (t.units.get? k).elim (s.get k) (f (s.get k)) = f (s.get k) ((t.units.get? k).getD 0)
  cases t.units.get? k with
  | none => exact (hf _).symm
  | some u => rfl

@[simp] theorem get_merge (s t : Tally) (k : Category) : (s.merge t).get k = s.get k + t.get k :=
  get_alter_units Units.add_zero s t k

@[simp] theorem get_less (s t : Tally) (k : Category) : (s.less t).get k = s.get k - t.get k :=
  get_alter_units Units.sub_zero s t k

theorem get_ofMap (m : SortedMap Category Units) (k : Category) :
    (ofMap m).get k = (m.get? k).getD 0 :=
  (get_alter_units Units.add_zero empty ⟨m⟩ k).trans (Units.zero_add _)

@[simp] theorem get_capacity (t : Tally) (k : Category) : t.capacity.get k = t.get k :=
  Capacity.get_ofFn t.get k

/-! ## What fits -/

/-- A tally fits if it does in every category, listed or not. -/
theorem contains_iff : s.contains t = true ↔ ∀ k, t.get k ≤ s.get k := by
  simp only [contains, List.all_eq_true, decide_eq_true_eq]
  constructor
  · intro h k
    cases hk : t.units.get? k with
    | none =>
      rw [get, hk]
      exact Units.zero_le _
    | some u =>
      rw [get, hk]
      exact h (k, u) (SortedMap.mem_entries_iff.mpr hk)
  · rintro h ⟨k, u⟩ he
    have hk := h k
    rwa [get, SortedMap.mem_entries_iff.mp he] at hk

theorem shortage?_eq_none_iff : s.shortage? t = none ↔ s.contains t = true := by
  simp [shortage?, contains, Units.lt_iff, Units.le_iff]

/-- The shortage is that of the first category in which there is one. -/
theorem shortage?_eq_some {e : Shortage} (h : s.shortage? t = some e) :
    ∃ k, e = ⟨k, s.get k, t.get k⟩ ∧ s.get k < t.get k ∧
      ∀ k', compare k' k = .lt → t.get k' ≤ s.get k' := by
  obtain ⟨before, ⟨k, u⟩, after, hsplit, hhere, hbefore⟩ := List.findSome?_eq_some_iff.mp h
  have hlisted : (k, u) ∈ t.units.entries := hsplit ▸ List.mem_append_cons_self
  have hk : t.get k = u := by rw [get, SortedMap.mem_entries_iff.mp hlisted, Option.getD_some]
  split at hhere
  · next hlt =>
    cases hhere
    refine ⟨k, by rw [hk], by rwa [hk], fun k' hk' => ?_⟩
    cases hget : t.units.get? k' with
    | none =>
      rw [get, hget]
      exact Units.zero_le _
    | some v =>
      -- an entry that is before the one that exceeds was checked before it
      have hmem : (k', v) ∈ before := by
        have hin := hsplit ▸ SortedMap.mem_entries_iff.mpr hget
        have hsorted := List.pairwise_append.mp (hsplit ▸ t.units.sorted)
        rcases List.mem_append.mp hin with hin | hin
        · exact hin
        · have hge : compare k k' ≠ .gt := by
            rcases List.mem_cons.mp hin with heq | hin
            · cases heq
              simp [Std.ReflCmp.compare_self]
            · rw [(List.pairwise_cons.mp hsorted.2.1).1 _ hin]
              simp
          exact absurd (Std.OrientedCmp.gt_of_lt hk') hge
      have hfits := hbefore _ hmem
      rw [get, hget]
      simpa [Units.lt_iff, Units.le_iff] using hfits
  · cases hhere

/-! ## Sums and differences -/

theorem merge_comm (hs : s.NoZero) (ht : t.NoZero) : s.merge t = t.merge s :=
  (hs.merge t).ext (ht.merge s) fun k => by rw [get_merge, get_merge, Units.add_comm]

theorem merge_assoc (ha : a.NoZero) (b c : Tally) :
    (a.merge b).merge c = a.merge (b.merge c) :=
  ((ha.merge b).merge c).ext (ha.merge _) fun k => by simp only [get_merge, Units.add_assoc]

/-- What fits is taken. -/
theorem take_of_contains (h : s.contains t = true) : s.take t = (.ok (), s.less t) :=
  take_eq_of_none (shortage?_eq_none_iff.mpr h)

theorem subtract_of_contains (h : s.contains t = true) : s.subtract t = .ok (s.less t) :=
  subtract_eq_ok_iff.mpr (take_of_contains h)

/-- What does not fit is refused for the first category that exceeds, and nothing is taken. -/
theorem take_of_not_contains (h : s.contains t = false) :
    ∃ k, s.take t = (.error ⟨k, s.get k, t.get k⟩, s) ∧ s.get k < t.get k ∧
      ∀ k', compare k' k = .lt → t.get k' ≤ s.get k' := by
  cases he : s.shortage? t with
  | none =>
    rw [shortage?_eq_none_iff.mp he] at h
    cases h
  | some e =>
    obtain ⟨k, rfl, hlt, hbefore⟩ := shortage?_eq_some he
    exact ⟨k, take_eq_of_shortage? he, hlt, hbefore⟩

/-- Only what fits has a difference, which is what is left. -/
theorem eq_less_of_subtract (h : s.subtract t = .ok d) : s.contains t = true ∧ d = s.less t := by
  rw [subtract_eq_ok_iff] at h
  cases hfits : s.contains t with
  | true =>
    rw [take_of_contains hfits] at h
    exact ⟨rfl, (Prod.mk.inj h).2.symm⟩
  | false =>
    obtain ⟨k, hk, -⟩ := take_of_not_contains hfits
    rw [hk] at h
    cases h

/-- A difference and what was taken make up what there was. -/
theorem less_merge (hs : s.NoZero) (h : s.contains t = true) : (s.less t).merge t = s :=
  ((hs.less t).merge t).ext hs fun k => by
    rw [get_merge, get_less, Units.sub_add_cancel (contains_iff.mp h k)]

/-- What was added can be taken again, where no sum saturates. -/
theorem subtract_merge (hs : s.NoZero)
    (h : ∀ k, (s.get k).count + (t.get k).count ≤ Units.limit) :
    (s.merge t).subtract t = .ok s := by
  have hfits : (s.merge t).contains t = true := contains_iff.mpr fun k => by
    have hk := h k
    simp only [get_merge, Units.le_iff, Units.count_add, Units.limit] at hk ⊢
    omega
  have hless : (s.merge t).less t = s := ((hs.merge t).less t).ext hs fun k => by
    rw [get_less, get_merge, Units.add_sub_cancel (h k)]
  rw [subtract_of_contains hfits, hless]

/-! ## Tallies are capacities -/

theorem capacity_set (t : Tally) (k : Category) (u : Units) :
    (t.set k u).capacity = t.capacity.set k u :=
  Capacity.ext_get fun k' => by simp [get_set]

/-- Adding up a list of amounts gives the counts that it gives in place. -/
theorem capacity_alter_add (t : Tally) (l : List (Category × Units)) :
    (t.alter (· + ·) l).capacity =
      l.foldl (fun x e => x.set e.1 (x.get e.1 + e.2)) t.capacity := by
  induction l generalizing t with
  | nil => rfl
  | cons e l ih =>
    rw [List.foldl_cons, get_capacity, ← capacity_set]
    exact ih _

theorem capacity_collect (l : List (Category × Units)) :
    (collect l).capacity = Capacity.ofPairs l := capacity_alter_add empty l

theorem capacity_merge (s t : Tally) : (s.merge t).capacity = s.capacity.merge t.capacity :=
  Capacity.ext_get fun k => by simp

theorem contains_capacity (s t : Tally) : s.capacity.contains t.capacity = s.contains t := by
  rw [Bool.eq_iff_iff, Capacity.contains_iff, contains_iff]
  simp only [get_capacity]

/-- The counts of a tally are listed as the tally lists them. -/
theorem pairs_capacity (ht : t.NoZero) : t.capacity.pairs = t.units.entries := by
  refine SortedMap.entries_ext ?_ t.units.sorted fun ⟨k, u⟩ => ?_
  · exact (List.pairwise_map.mpr Category.pairwise_all).filter _
  · rw [SortedMap.mem_entries_iff, ht.get?_eq_some_iff]
    simp only [Capacity.pairs, List.mem_filter, List.mem_map, Prod.mk.injEq, get_capacity,
      decide_eq_true_eq]
    constructor
    · rintro ⟨⟨_, -, rfl, rfl⟩, hu⟩
      exact ⟨hu, rfl⟩
    · rintro ⟨hu, rfl⟩
      exact ⟨⟨k, k.mem_all, rfl, rfl⟩, hu⟩

/-- A tally is determined by its counts. -/
theorem eq_iff_capacity_eq (hs : s.NoZero) (ht : t.NoZero) : s = t ↔ s.capacity = t.capacity := by
  refine ⟨fun h => h ▸ rfl, fun h => hs.ext ht fun k => ?_⟩
  rw [← get_capacity, h, get_capacity]

theorem shortage?_capacity (s : Tally) (ht : t.NoZero) :
    s.capacity.shortage? t.capacity = s.shortage? t := by
  rw [shortage?, ← pairs_capacity ht, Capacity.shortage?, Capacity.pairs]
  induction Category.all with
  | nil => rfl
  | cons k l ih =>
    rw [List.findSome?_cons, List.map_cons, List.filter_cons, ih]
    by_cases hk : t.get k = 0
    · simp [hk, Units.lt_iff]
    · simp [hk, List.findSome?_cons]

/-- The difference of tallies is the difference of their counts. -/
theorem subtract_capacity (s : Tally) (ht : t.NoZero) :
    s.capacity.subtract t.capacity = (s.subtract t).map capacity := by
  rw [Capacity.subtract, shortage?_capacity s ht, subtract]
  cases h : s.shortage? t with
  | some e => rw [take_eq_of_shortage? h]; rfl
  | none =>
    rw [take_eq_of_none h]
    exact congrArg Except.ok (Capacity.ext_get fun k => by simp)

/-- Reading the fields of a capacity keeps pace with reading them into a map. -/
theorem capacityFields_eq (known : Nat) (fields : List (String × Json))
    (m : SortedMap Category Units) (x : Capacity) (hx : ∀ k, x.get k = (m.get? k).getD 0) :
    Wire.capacityFields known x fields =
      (fields? known m fields).map fun m => (ofMap m).capacity := by
  induction fields generalizing m x with
  | nil =>
    exact congrArg some (Capacity.ext_get fun k => by rw [hx, get_capacity, get_ofMap])
  | cons e r ih =>
    obtain ⟨name, v⟩ := e
    simp only [Wire.capacityFields, fields?]
    cases Category.ofName? name with
    | none => rfl
    | some k =>
      cases hv : (Wire.decode known v : Option Units) with
      | none => rfl
      | some u =>
        refine ih (m.insert k u) (x.set k u) fun k' => ?_
        rw [Capacity.get_set, SortedMap.get?_insert, hx]
        split <;> rfl

/-- Reading a capacity is reading a tally. -/
theorem decode_capacity (known : Nat) (j : Json) :
    (Wire.decode known j : Option Capacity) = (read? known j).map capacity := by
  cases j with
  | obj fields =>
    rw [read?, Option.map_map]
    exact capacityFields_eq known fields .empty .empty fun k => by simp
  | _ => rfl

/-! ## The laws -/

/-- The laws of the arithmetic of tallies. -/
structure Arithmetic (a b c : Tally) : Prop where
  /-- No zero is listed. -/
  positive : ∀ e ∈ a.units.entries, e.2 ≠ 0
  /-- Tallies are equal if they agree on every category. -/
  eq_iff : a = b ↔ ∀ k, a.get k = b.get k
  /-- There is a difference exactly if what is taken fits. -/
  fits : (∃ d, a.subtract b = .ok d) ↔ a.contains b = true
  /-- The difference is taken in every category, in place or not, and adding it again restores what
  there was. -/
  taken : ∀ d, a.subtract b = .ok d → a.take b = (.ok (), d) ∧
    (∀ k, (d.get k).count = (a.get k).count - (b.get k).count) ∧ d.merge b = a
  /-- What does not fit is refused with both amounts of the first category that exceeds; in place,
  nothing is taken. -/
  refused : a.contains b = false → ∃ k, a.subtract b = .error ⟨k, a.get k, b.get k⟩ ∧
    a.take b = (.error ⟨k, a.get k, b.get k⟩, a) ∧ a.get k < b.get k ∧
      ∀ k', compare k' k = .lt → b.get k' ≤ a.get k'
  /-- A sum does not depend on the order, saturated or not. -/
  comm : a.merge b = b.merge a
  /-- Nor does it depend on how it is grouped. -/
  assoc : (a.merge b).merge c = a.merge (b.merge c)
  /-- Where no category saturates, what was added can be taken again. -/
  restored : (∀ k, (a.get k).count + (b.get k).count ≤ Units.limit) →
    (a.merge b).subtract b = .ok a

/-- The arithmetic of tallies is that of capacities, which only keep the counts. -/
structure Counted (a b : Tally) : Prop where
  /-- A tally is determined by its counts. -/
  eq_iff : a = b ↔ a.capacity = b.capacity
  /-- Its entries are the categories that have units. -/
  pairs : a.capacity.pairs = a.units.entries
  /-- Amounts are collected alike. -/
  collect : ∀ l, (collect l).capacity = Capacity.ofPairs l
  /-- Written forms are read alike. -/
  read : ∀ known j, (Wire.decode known j : Option Capacity) = (read? known j).map capacity
  /-- One category is replaced alike. -/
  set : ∀ k u, (a.set k u).capacity = a.capacity.set k u
  /-- The same fits. -/
  contains : a.capacity.contains b.capacity = a.contains b
  /-- Sums are the same. -/
  merge : (a.merge b).capacity = a.capacity.merge b.capacity
  /-- Differences are the same, and so are shortages. -/
  subtract : a.capacity.subtract b.capacity = (a.subtract b).map Tally.capacity

/-- However tallies were made, the laws hold of them and of the capacities that they keep. -/
theorem Built.arithmetic (ha : a.Built) (hb : b.Built) (c : Tally) :
    Arithmetic a b c ∧ Counted a b := by
  have ha := ha.noZero
  have hb := hb.noZero
  refine ⟨?_, ?_⟩
  · exact {
      positive := fun e he => ha e.1 e.2 (SortedMap.mem_entries_iff.mp he)
      eq_iff := ⟨fun h k => h ▸ rfl, ha.ext hb⟩
      fits := ⟨fun ⟨_, hd⟩ => (eq_less_of_subtract hd).1, fun h => ⟨_, subtract_of_contains h⟩⟩
      taken := fun d hd => by
        obtain ⟨hfits, rfl⟩ := eq_less_of_subtract hd
        exact ⟨take_of_contains hfits, fun k => by rw [get_less, Units.count_sub],
          less_merge ha hfits⟩
      refused := fun h => by
        obtain ⟨k, hk, hlt, hbefore⟩ := take_of_not_contains h
        exact ⟨k, by rw [Tally.subtract, hk], hk, hlt, hbefore⟩
      comm := merge_comm ha hb
      assoc := merge_assoc ha b c
      restored := subtract_merge ha }
  · exact {
      eq_iff := eq_iff_capacity_eq ha hb
      pairs := pairs_capacity ha
      collect := capacity_collect
      read := decode_capacity
      set := capacity_set a
      contains := contains_capacity a b
      merge := capacity_merge a b
      subtract := subtract_capacity a hb }

/-! ### Amounts with repetitions and zeros -/

/-- Amounts in which one category is repeated and one is zero. -/
def repeated : Tally := collect [(.gpu, 1), (.cpu, 1), (.fpga, 0), (.gpu, 1)]

/-- A tally that is written with a zero. -/
theorem read?_zero : read? 0 (.obj [("gpu", .int 0), ("cpu", .int 1)]) = some (cpus 1) := by
  decide +kernel

/-- The laws hold of both: the first lists two categories, the second one of them, which fits into
the first. -/
theorem arithmetic_repeated :
    repeated.Built ∧ (cpus 1).Built ∧
      (Arithmetic repeated (cpus 1) repeated ∧ Counted repeated (cpus 1)) ∧
      repeated.units.entries = [(.cpu, 1), (.gpu, 1 + 1)] ∧
      repeated.subtract (cpus 1) = .ok (empty.set .gpu (1 + 1)) ∧
      (cpus 1).subtract repeated = .error ⟨.gpu, 0, 1 + 1⟩ := by
  have hr : repeated.Built := .collect _
  have hc : (cpus 1).Built := .read read?_zero
  exact ⟨hr, hc, hr.arithmetic hc repeated, by decide +kernel, by decide +kernel,
    by decide +kernel⟩

end Tally

end TaskGrid
