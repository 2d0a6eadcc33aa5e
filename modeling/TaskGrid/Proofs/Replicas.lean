import TaskGrid.Proofs.Announcements

/-!
# Where data can be read

What is known of a datum follows from its replicas: it is available if it has one, and its marks
agree with them (`Catalog.Marked`), also where names were linked anew and hosts were forgotten
before their workers left.  The names of data are kept by everything but a link, and a departure
takes no last replica without an order to save the datum.

* `Catalog.HasAvailable`, `Catalog.Holds`: what can be read somewhere, and where.
* `Catalog.Changes.marked`: no change breaks the marks.
* `Catalog.holds_addReplica`: a new replica is all that an addition changes.
* `Pool.Departs.kept`: what a departure takes from the data, it orders to be saved.
-/

namespace TaskGrid

namespace Catalog

variable {c c' : Catalog} {k n : String} {r s : Replica}

/-- The datum of canonical name `k` has the replica `r`. -/
def Holds (c : Catalog) (k : String) (r : Replica) : Prop :=
  ∃ d, c.data.get? k = some d ∧ r ∈ d.replicas

/-- The datum of canonical name `k` is available. -/
def HasAvailable (c : Catalog) (k : String) : Prop :=
  ∃ d, c.data.get? k = some d ∧ d.isAvailable = true

/-- The marks of every datum agree with its replicas. -/
def Marked (c : Catalog) : Prop := ∀ k d, c.data.get? k = some d → d.Sound

theorem isAvailable_datum_iff {d : Datum} : d.isAvailable = true ↔ ∃ r, r ∈ d.replicas := by
  unfold Datum.isAvailable
  rw [Bool.not_eq_true', ← Bool.not_eq_true, SortedSet.isEmpty_iff, not_forall]
  exact exists_congr fun r => not_not

theorem hasAvailable_iff : c.HasAvailable k ↔ ∃ r, c.Holds k r := by
  simp only [HasAvailable, Holds, isAvailable_datum_iff]
  exact ⟨fun ⟨d, hd, r, hr⟩ => ⟨r, d, hd, hr⟩, fun ⟨r, d, hd, hr⟩ => ⟨d, hd, r, hr⟩⟩

/-! ## Marks -/

theorem marked_empty : Marked {} := fun _ _ h => by cases h

theorem Marked.of_data (hc : c.Marked) (h : c'.data = c.data) : c'.Marked := fun k d hd =>
  hc k d (h ▸ hd)

theorem Marked.update (hc : c.Marked) {f : Datum → Datum} (hf : ∀ d : Datum, d.Sound → (f d).Sound)
    (k : String) : (c.update k f).Marked := by
  intro j d hd
  rw [get?_update] at hd
  split at hd
  · obtain ⟨d, hd', rfl⟩ := Option.map_eq_some_iff.mp hd
    exact hf d (hc k d hd')
  · exact hc j d hd

theorem Marked.similar (hc : c.Marked) (h : c.Similar c') : c'.Marked := by
  intro k e he
  obtain ⟨d, hd, hs⟩ := h.back he
  exact hs.sound (hc k d hd)

theorem Marked.register (hc : c.Marked) (name : String) : (c.register name).Marked := by
  unfold Catalog.register
  split
  · exact hc
  · intro k d hd
    rw [SortedMap.get?_insert] at hd
    split at hd
    · rw [← Option.some_inj.mp hd]
      exact Datum.sound_named name
    · exact hc k d hd

theorem Marked.insertReplica (hc : c.Marked) (k : String) (r : Replica) :
    (c.insertReplica k r).catalog.Marked := by
  unfold Catalog.insertReplica
  split
  · exact hc
  · split
    · exact hc
    · exact (hc.of_data (data_index k r)).update (fun d hd => Datum.sound_addReplica hd r) k

theorem Marked.removeHost (hc : c.Marked) (name host : String) :
    (c.removeHost name host).2.Marked := by
  cases hdn : c.datum? name with
  | none =>
    rw [removeHost_of_none hdn]
    exact hc
  | some d =>
    obtain ⟨k, hn, hd⟩ := Option.bind_eq_some_iff.mp hdn
    rw [removeHost_eq hn hd]
    have hhosts : Marked { c with
        hosts := c.hosts.modify host fun e => { e with data := e.data.erase k } } := hc
    exact hhosts.update (fun _ _ => sound_without (hc k d hd) host) k

theorem Marked.departHost (hc : c.Marked) (host : String) : (c.departHost host).2.Marked :=
  departHost_preserves (fun name hb => hb.removeHost name host) (fun hb => hb) hc

/-- No change of a catalog breaks the marks, proper or not. -/
theorem Change.marked {proper : Bool} (h : Change proper c c') (hc : c.Marked) : c'.Marked := by
  cases h with
  | register name => exact hc.register name
  | link linked _ =>
    obtain ⟨k, -, rfl⟩ := Option.map_eq_some_iff.mp linked
    exact Marked.update hc (fun d hd => (d.similar_addName _).sound hd) k
  | addReplica name r => exact (hc.register name).insertReplica _ r
  | finishCopy h =>
    obtain ⟨e, he, rfl⟩ := Option.map_eq_some_iff.mp h
    exact (hc.similar (alike_retireCopy he).toSimilar).insertReplica _ _
  | removeHost name host => exact hc.removeHost name host
  | departHost host => exact hc.departHost host
  | forgetHost host _ => exact hc
  | alike h => exact hc.similar h.toSimilar

theorem Changes.marked {proper : Bool} (h : Changes proper c c') (hc : c.Marked) : c'.Marked := by
  induction h with
  | refl => exact hc
  | tail _ hch ih => exact hch.marked ih

/-! ## Names -/

/-- Where names stay, they stand for what they stood for. -/
theorem canonical?_congr (h : c'.names = c.names) : c'.canonical? = c.canonical? :=
  funext fun n => congrArg (fun m => SortedMap.get? m n) h

theorem names_insertReplica (c : Catalog) (k : String) (r : Replica) :
    (c.insertReplica k r).catalog.names = c.names := by
  unfold insertReplica
  split
  · rfl
  · split
    · rfl
    · exact names_index k r

theorem names_removeHost (c : Catalog) (name host : String) :
    (c.removeHost name host).2.names = c.names := by
  cases hdn : c.datum? name with
  | none => rw [removeHost_of_none hdn]
  | some d =>
    obtain ⟨k, hn, hd⟩ := Option.bind_eq_some_iff.mp hdn
    rw [removeHost_eq hn hd]
    rfl

theorem names_departHost (c : Catalog) (host : String) :
    (c.departHost host).2.names = c.names :=
  departHost_preserves (P := fun b => b.names = c.names)
    (fun name hb => (names_removeHost _ name host).trans hb) (fun hb => hb) rfl

/-- What a name stands for does not change when another one is registered, or the same again. -/
theorem canonical?_register (hn : c.canonical? n = some k) (name : String) :
    (c.register name).canonical? n = some k := by
  by_cases hne : n = name
  · subst hne
    rw [canonical?_register_self, canonicalOf, hn, Option.getD_some]
  · rw [canonical?_register_of_ne c hne, hn]

/-- What a name stands for does not change when a replica is added to a datum. -/
theorem canonical?_addReplica (hn : c.canonical? n = some k) (name : String) (r : Replica) :
    (c.addReplica name r).catalog.canonical? n = some k := by
  rw [canonical?, addReplica, names_insertReplica, ← canonical?]
  exact canonical?_register hn name

theorem exists_canonical?_addReplica (c : Catalog) (name : String) (r : Replica) :
    ∃ k, (c.addReplica name r).catalog.canonical? name = some k := by
  rw [addReplica, canonical?_congr (names_insertReplica _ _ r), canonical?_register_self]
  exact ⟨_, rfl⟩

/-- Edits take no name from a datum. -/
theorem Edits.canonical? (h : Edits c c') (hn : c.canonical? n = some k) :
    c'.canonical? n = some k := by
  induction h with
  | refl => exact hn
  | @tail b b' _ hch ih =>
    cases hch with
    | departHost host => rwa [Catalog.canonical?, names_departHost]
    | addReplica name r => exact canonical?_addReplica ih name r
    | @link name existing l linked free =>
      obtain ⟨j, -, rfl⟩ := Option.map_eq_some_iff.mp linked
      have hne : n ≠ name := by
        rintro rfl
        rw [free] at ih
        cases ih
      exact (SortedMap.get?_insert_of_ne _ _ hne).trans ih

/-! ## New replicas -/

theorem holds_register (hc : c.Listed) (name : String) :
    (c.register name).Holds k s ↔ c.Holds k s := by
  unfold register
  split
  · exact .rfl
  · next hreg =>
    have hfresh : c.data.get? name = none := by
      cases hd : c.data.get? name with
      | none => rfl
      | some d =>
        obtain ⟨j, hj⟩ := hc.registered hd
        exact absurd (SortedMap.contains_iff.mpr ⟨j, hj⟩) hreg
    unfold Holds
    rw [SortedMap.get?_insert]
    split
    · next hk =>
      subst hk
      rw [hfresh]
      constructor
      · rintro ⟨d, hd, hs⟩
        rw [← Option.some_inj.mp hd] at hs
        exact absurd hs (SortedSet.not_mem_empty s)
      · rintro ⟨d, hd, -⟩
        cases hd
    · exact .rfl

theorem holds_insertReplica {d : Datum} (hd : c.data.get? n = some d) (r : Replica) :
    (c.insertReplica n r).catalog.Holds k s ↔ c.Holds k s ∨ s = r ∧ n = k := by
  unfold insertReplica
  rw [hd]
  dsimp only
  split
  · next hmem =>
    refine (or_iff_left_of_imp ?_).symm
    rintro ⟨rfl, rfl⟩
    exact ⟨d, hd, hmem⟩
  · unfold Holds
    rw [get?_update, data_index, hd, Option.map_some]
    by_cases hk : k = n
    · subst hk
      rw [if_pos rfl, hd]
      simp only [Option.some.injEq, exists_eq_left', and_true]
      exact SortedSet.mem_insert.trans Or.comm
    · rw [if_neg hk, or_iff_left fun h => hk h.2.symm]

/-- A replica is added to the datum that the name stands for then, and to no other. -/
theorem holds_addReplica (hc : c.Listed) (name : String) (r : Replica) :
    (c.addReplica name r).catalog.Holds k s ↔
      c.Holds k s ∨ s = r ∧ (c.addReplica name r).catalog.canonical? name = some k := by
  have hnamed : (c.register name).canonical? name = some (c.canonicalOf name) :=
    canonical?_register_self c name
  obtain ⟨d, hd, -⟩ := ((announces_register c name (l := [])).listed hc).named hnamed
  rw [addReplica, holds_insertReplica hd, holds_register hc, canonical?, names_insertReplica,
    ← canonical?, hnamed, Option.some_inj]

/-! ## Departures -/

/-- What a host takes from a datum is ordered to be saved if nothing is left. -/
theorem HasAvailable.removeHost (hc : c.Marked) (h : c.HasAvailable k) (name host : String) :
    (c.removeHost name host).2.HasAvailable k ∨
      c.canonical? name = some k ∧ ∃ s, (c.removeHost name host).1 = some s := by
  obtain ⟨d, hd, hav⟩ := h
  cases hdn : c.datum? name with
  | none =>
    rw [removeHost_of_none hdn]
    exact .inl ⟨d, hd, hav⟩
  | some e =>
    obtain ⟨j, hn, he⟩ := Option.bind_eq_some_iff.mp hdn
    rw [removeHost_eq hn he]
    have hget (i : String) : (update { c with
        hosts := c.hosts.modify host fun e => { e with data := e.data.erase j } } j
        fun _ => c.without host e).data.get? i =
        if i = j then some (c.without host e) else c.data.get? i := by
      rw [get?_update]
      show (if i = j then Option.map _ (c.data.get? j) else c.data.get? i) = _
      rw [he, Option.map_some]
    by_cases hk : k = j
    · subst hk
      rw [hd] at he
      obtain rfl := Option.some_inj.mp he
      by_cases hleft : (c.without host d).isAvailable = true
      · exact .inl ⟨_, (hget k).trans (if_pos rfl), hleft⟩
      · refine .inr ⟨hn, (isSome_rescue?_iff (hc k d hd)).mpr
          ⟨isAvailable_datum_iff.mp hav, fun r hr => ?_⟩⟩
        by_contra hl
        exact hleft (isAvailable_datum_iff.mpr ⟨r, mem_replicas_without.mpr ⟨hr, hl⟩⟩)
    · exact .inl ⟨d, (hget k).trans ((if_neg hk).trans hd), hav⟩

theorem HasAvailable.removeAll (hc : c.Marked) (h : c.HasAvailable k) (host : String)
    (orders : List RescueOrder) (l : List String) :
    (removeAll host (orders, c) l).2.HasAvailable k ∨
      ∃ o ∈ (removeAll host (orders, c) l).1, c.canonical? o.data = some k := by
  -- orders that were made are kept, so the first datum that needs it decides
  have hkept (l : List String) (orders : List RescueOrder) (b : Catalog) :
      ∀ o ∈ orders, o ∈ (Catalog.removeAll host (orders, b) l).1 := by
    intro o ho
    exact List.foldlRecOn (motive := fun r : List RescueOrder × Catalog => o ∈ r.1) l _ ho
      fun _ hr _ _ => List.mem_append_left _ hr
  induction l generalizing c orders with
  | nil => exact .inl h
  | cons name l ih =>
    have hnames : (c.removeHost name host).2.canonical? = c.canonical? :=
      canonical?_congr (names_removeHost c name host)
    rcases h.removeHost hc name host with hav | ⟨hn, s, hs⟩
    · have hrest := ih (hc.removeHost name host) hav
        (orders ++ (c.removeHost name host).1.toList.map fun s => ⟨name, host, s⟩)
      rw [hnames] at hrest
      exact hrest
    · refine .inr ⟨⟨name, host, s⟩, hkept l _ _ _ ?_, hn⟩
      refine List.mem_append_right _ (List.mem_map.mpr ⟨s, ?_, rfl⟩)
      exact Option.mem_toList.mpr hs

theorem HasAvailable.departHost (hc : c.Marked) (h : c.HasAvailable k) (host : String) :
    (c.departHost host).2.HasAvailable k ∨
      ∃ o ∈ (c.departHost host).1, c.canonical? o.data = some k :=
  h.removeAll hc host [] (c.dataOn host).toList

end Catalog

/-- What leaves with a worker is ordered to be saved. -/
theorem Pool.Departs.kept {p : Pool} {c : Catalog} {key : WorkerKey} {d : Departure}
    (h : p.Departs c key d) (hc : c.Marked) {k : String} (hk : c.HasAvailable k) :
    d.catalog.HasAvailable k ∨ ∃ o ∈ d.removed.rescues, d.catalog.canonical? o.data = some k := by
  rcases h.cases_host with ⟨-, -, hsame⟩ | ⟨-, he⟩
  · rw [hsame]
    exact .inl hk
  · rw [show d.removed.rescues = (c.departHost key.name).1 from congrArg Prod.fst he,
      show d.catalog = (c.departHost key.name).2 from congrArg Prod.snd he,
      Catalog.canonical?_congr (c.names_departHost key.name)]
    exact hk.departHost hc key.name

end TaskGrid
