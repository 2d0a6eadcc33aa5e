import TaskGrid.Proofs.Imports

/-!
# Data without a source

A datum can be taken over if there is a replica among its sources, or another name that is
registered by then.  Where several data are taken over one after the other, the names of the
earlier ones are registered by the time a later one is looked at, so that a datum may be taken from
one that comes before it.

* `Catalog.RegistersAlso`: which names are registered once some data were taken over.
* `RemoteData.Unsourced`: nothing can be taken from any source, given the data that come before.
* `RemoteData.firstUnsourced?`: the first datum of a list of which this is so.
* `Import.isRegistered_linked`: which names are registered once a name was linked.
-/

namespace TaskGrid

/-! ## Names that are registered -/

namespace Catalog

variable {c : Catalog} {n name other : String} {r : Replica}

theorem isRegistered_iff : c.isRegistered n = true ↔ ∃ k, c.canonical? n = some k :=
  SortedMap.contains_iff

/-- The names that are registered are those of before and those of some data. -/
def RegistersAlso (c : Catalog) (l : List RemoteData) (c' : Catalog) : Prop :=
  ∀ n, c'.isRegistered n = true ↔ c.isRegistered n = true ∨ ∃ q ∈ l, q.name = n

theorem isRegistered_register : (c.register name).isRegistered n = true ↔
    c.isRegistered n = true ∨ n = name := by
  rw [isRegistered_iff, isRegistered_iff]
  by_cases hn : n = name
  · subst hn
    exact iff_of_true ⟨_, c.canonical?_register_self n⟩ (.inr rfl)
  · rw [canonical?_register_of_ne c hn, or_iff_left hn]

theorem isRegistered_addReplica : (c.addReplica name r).catalog.isRegistered n = true ↔
    c.isRegistered n = true ∨ n = name := by
  rw [← isRegistered_register, isRegistered_iff, isRegistered_iff, addReplica,
    canonical?_congr (names_insertReplica _ _ r)]

theorem isRegistered_link {l : Linked} (h : c.link? name other = some l) :
    l.catalog.isRegistered n = true ↔ c.isRegistered n = true ∨ n = name := by
  obtain ⟨k, -, rfl⟩ := Option.map_eq_some_iff.mp h
  rw [isRegistered_iff, isRegistered_iff, canonical?_update]
  unfold canonical?
  rw [SortedMap.get?_insert]
  by_cases hn : n = name
  · rw [if_pos hn]
    exact iff_of_true ⟨k, rfl⟩ (.inr hn)
  · rw [if_neg hn, or_iff_left hn]

theorem RegistersAlso.append {l : List RemoteData} {c' c'' : Catalog} (h : c.RegistersAlso l c')
    (q : RemoteData)
    (h' : ∀ n, c''.isRegistered n = true ↔ c'.isRegistered n = true ∨ n = q.name) :
    c.RegistersAlso (l ++ [q]) c'' := by
  intro n
  rw [h' n, h n, or_assoc]
  simp only [List.mem_append, List.mem_singleton, or_and_right, exists_or, exists_eq_left]
  rw [eq_comm (a := n)]

end Catalog

/-! ## Sources -/

/-- Nothing can be taken from a source of a datum that comes after others: it gives another name,
which neither was registered before nor is that of one of the others. -/
def RemoteSource.IsUnknown (c : Catalog) (earlier : List RemoteData) : RemoteSource → Prop
  | .location .. => False
  | .localAlias n => c.isRegistered n = false ∧ ∀ q ∈ earlier, q.name ≠ n

instance (c : Catalog) (earlier : List RemoteData) :
    (s : RemoteSource) → Decidable (s.IsUnknown c earlier)
  | .location .. => inferInstanceAs (Decidable False)
  | .localAlias n =>
    inferInstanceAs (Decidable (c.isRegistered n = false ∧ ∀ q ∈ earlier, q.name ≠ n))

theorem RemoteSource.isUnknown_iff {c c' : Catalog} {earlier : List RemoteData}
    (h : c.RegistersAlso earlier c') (s : RemoteSource) :
    s.IsUnknown c earlier ↔ s.known? c' = none ∧ s.replica? = none := by
  cases s with
  | location r host => exact iff_of_false nofun nofun
  | localAlias n =>
    have hnot : c'.isRegistered n = false ↔
        c.isRegistered n = false ∧ ∀ q ∈ earlier, q.name ≠ n := by
      rw [← Bool.not_eq_true, ← Bool.not_eq_true, h n, not_or, not_exists]
      exact and_congr_right fun _ => forall_congr' fun q => not_and
    have hknown : RemoteSource.known? c' (.localAlias n) = none ↔ c'.isRegistered n = false := by
      unfold RemoteSource.known?
      split <;> simp_all
    rw [hknown, hnot]
    exact (and_iff_left rfl).symm

namespace RemoteData

variable {c c' : Catalog} {earlier l : List RemoteData} {q r : RemoteData}

/-- A datum that comes after others has no source. -/
def Unsourced (c : Catalog) (earlier : List RemoteData) (r : RemoteData) : Prop :=
  ∀ s ∈ r.sources, s.IsUnknown c earlier

instance (c : Catalog) (earlier : List RemoteData) (r : RemoteData) :
    Decidable (r.Unsourced c earlier) :=
  inferInstanceAs (Decidable (∀ s ∈ r.sources, s.IsUnknown c earlier))

theorem isRegistered_of_mem_known {n : String} (h : n ∈ r.known c) : c.isRegistered n = true := by
  obtain ⟨s, -, hs⟩ := List.mem_filterMap.mp h
  cases s with
  | location => cases hs
  | localAlias m =>
    obtain ⟨hm, he⟩ := Option.ite_none_right_eq_some.mp hs
    exact Option.some.inj he ▸ hm

/-- There is nothing to count then. -/
theorem unsourced_iff (h : c.RegistersAlso earlier c') :
    r.Unsourced c earlier ↔ (r.known c').length + r.replicas.length = 0 := by
  unfold Unsourced known replicas
  rw [Nat.add_eq_zero_iff, List.length_eq_zero_iff, List.length_eq_zero_iff,
    List.filterMap_eq_nil_iff, List.filterMap_eq_nil_iff, ← forall₂_and]
  exact forall₂_congr fun s _ => s.isUnknown_iff h

/-- The first datum of a list that has no source, if the data `earlier` come before the list. -/
def firstUnsourced? (c : Catalog) (earlier : List RemoteData) : List RemoteData → Option RemoteData
  | [] => none
  | r :: rest =>
    if r.Unsourced c earlier then some r else firstUnsourced? c (earlier ++ [r]) rest

/-- It has no source after those that come before it, each of which has one. -/
theorem firstUnsourced?_eq_some_iff : firstUnsourced? c earlier l = some q ↔
    ∃ l₁ l₂, l = l₁ ++ q :: l₂ ∧ q.Unsourced c (earlier ++ l₁) ∧
      ∀ k₁ p k₂, l₁ = k₁ ++ p :: k₂ → ¬ p.Unsourced c (earlier ++ k₁) := by
  induction l generalizing earlier with
  | nil => simp [firstUnsourced?]
  | cons r rest ih =>
    unfold firstUnsourced?
    split
    · next hr =>
      constructor
      · intro h
        obtain rfl := Option.some.inj h
        exact ⟨[], rest, rfl, by rwa [List.append_nil], fun k₁ p k₂ hk => by simp at hk⟩
      · rintro ⟨l₁, l₂, hl, -, hbefore⟩
        cases l₁ with
        | nil => exact congrArg some (List.cons.inj hl).1
        | cons s l₁ =>
          obtain ⟨rfl, -⟩ := List.cons.inj hl
          exact absurd (by rwa [List.append_nil]) (hbefore [] r l₁ rfl)
    · next hr =>
      rw [ih]
      constructor
      · rintro ⟨l₁, l₂, rfl, hq, hbefore⟩
        refine ⟨r :: l₁, l₂, rfl, by rwa [List.append_cons], fun k₁ p k₂ hk => ?_⟩
        cases k₁ with
        | nil =>
          obtain ⟨rfl, -⟩ := List.cons.inj hk
          rwa [List.append_nil]
        | cons s k₁ =>
          obtain ⟨rfl, hrest⟩ := List.cons.inj hk
          rw [List.append_cons]
          exact hbefore k₁ p k₂ hrest
      · rintro ⟨l₁, l₂, hl, hq, hbefore⟩
        cases l₁ with
        | nil =>
          obtain ⟨rfl, -⟩ := List.cons.inj hl
          exact absurd (by rwa [List.append_nil] at hq) hr
        | cons s l₁ =>
          obtain ⟨rfl, hrest⟩ := List.cons.inj hl
          refine ⟨l₁, l₂, hrest, by rwa [List.append_cons] at hq, fun k₁ p k₂ hk => ?_⟩
          have hp := hbefore (r :: k₁) p k₂ (congrArg (r :: ·) hk)
          rwa [List.append_cons] at hp

/-- There is such a datum if some datum has no source after those that come before it. -/
theorem isSome_firstUnsourced?_iff : (firstUnsourced? c earlier l).isSome = true ↔
    ∃ l₁ q l₂, l = l₁ ++ q :: l₂ ∧ q.Unsourced c (earlier ++ l₁) := by
  constructor
  · intro h
    obtain ⟨q, hq⟩ := Option.isSome_iff_exists.mp h
    obtain ⟨l₁, l₂, hl, hun, -⟩ := firstUnsourced?_eq_some_iff.mp hq
    exact ⟨l₁, q, l₂, hl, hun⟩
  · rintro ⟨l₁, q, l₂, rfl, hq⟩
    induction l₁ generalizing earlier with
    | nil =>
      rw [List.append_nil] at hq
      rw [List.nil_append, firstUnsourced?, if_pos hq]
      rfl
    | cons r l₁ ih =>
      rw [List.cons_append, firstUnsourced?]
      split
      · rfl
      · exact ih (by rwa [List.append_cons] at hq)

end RemoteData

/-- A name that is linked to another one is registered. -/
theorem Import.isRegistered_linked {i : Import} {c : Catalog} {n : String}
    (hother : ∀ o, i.otherName = some o → c.isRegistered o = true) :
    (i.linked c).isRegistered n = true ↔
      c.isRegistered n = true ∨ i.otherName.isSome = true ∧ n = i.name := by
  unfold linked
  by_cases hname : c.isRegistered i.name = true
  · rw [if_pos hname]
    refine ⟨.inl, ?_⟩
    rintro (hn | ⟨-, rfl⟩)
    · exact hn
    · exact hname
  · rw [if_neg hname]
    cases ho : i.otherName with
    | none => simp
    | some o =>
      obtain ⟨k, hk⟩ := Catalog.isRegistered_iff.mp (hother o ho)
      obtain ⟨l, hl⟩ : ∃ l, c.link? i.name o = some l :=
        ⟨_, Option.map_eq_some_iff.mpr ⟨k, hk, rfl⟩⟩
      rw [Option.bind_some, hl, Option.map_some, Option.getD_some, Catalog.isRegistered_link hl]
      simp

end TaskGrid
