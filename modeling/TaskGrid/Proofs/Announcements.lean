import TaskGrid.Proofs.Changes

/-!
# Whatever becomes available is announced

The scheduler learns that data appeared only by names: each operation of the catalog returns the
names to announce.  If an operation let a name become available and did not announce it, an action
could wait for the name forever.

A datum is announced by the names that it lists.  So the names of a catalog must be listed by the
data they stand for (`Catalog.Listed`), and every operation keeps them so, whatever was linked to
what before.

* `Catalog.Announces`: what becomes available is among the names of a list.
* `Catalog.announces_link`, `Catalog.announces_addReplica`, `Catalog.announces_finishCopy`: the
  operations that announce.
* `Catalog.announces_removeHost`, `Pool.announces_perform`, ...: all others let nothing appear.
-/

namespace TaskGrid

/-- A datum goes on listing its names, and appears only with all of them announced. -/
structure Datum.Follows (l : List String) (d e : Datum) : Prop where
  /-- Its names are still listed. -/
  names : ∀ n ∈ d.names, n ∈ e.names
  /-- It was available, or all its names are announced. -/
  available : e.isAvailable = true → d.isAvailable = true ∨ ∀ n ∈ d.names, n ∈ l

theorem Datum.Follows.refl {l : List String} (d : Datum) : d.Follows l d :=
  ⟨fun _ h => h, .inl⟩

theorem Datum.mem_names_addName {d : Datum} {name n : String} :
    n ∈ (d.addName name).names ↔ n ∈ d.names ∨ n = name := by
  unfold addName
  split
  · next h =>
    refine (or_iff_left_of_imp ?_).symm
    rintro rfl
    exact h
  · exact List.mem_append.trans (or_congr_right List.mem_singleton)

@[simp] theorem Datum.isAvailable_addName (d : Datum) (name : String) :
    (d.addName name).isAvailable = d.isAvailable := by
  unfold addName
  split <;> rfl

namespace Catalog

/-- A catalog in which data list their names. -/
structure Listed (c : Catalog) : Prop where
  /-- A name stands for a datum that lists it. -/
  named : ∀ {n k}, c.names.get? n = some k → ∃ d, c.data.get? k = some d ∧ n ∈ d.names
  /-- A datum is filed under a registered name. -/
  registered : ∀ {k d}, c.data.get? k = some d → ∃ j, c.names.get? k = some j

theorem listed_empty : Listed {} where
  named h := by cases h
  registered h := by cases h

/-- Between two catalogs data go on listing their names, and what becomes available is in `l`. -/
structure Announces (c c' : Catalog) (l : List String) : Prop where
  /-- Data go on listing their names. -/
  listed : c.Listed → c'.Listed
  /-- What is available was available, or it is in the list. -/
  mem : c.Listed → ∀ n, c'.isAvailable n = true → c.isAvailable n = true ∨ n ∈ l

variable {c c' c'' : Catalog} {l l' : List String}

theorem Announces.refl (c : Catalog) : c.Announces c l := ⟨fun h => h, fun _ _ => .inl⟩

theorem Announces.trans (h : c.Announces c' l) (h' : c'.Announces c'' l') :
    c.Announces c'' (l ++ l') := by
  refine ⟨fun hc => h'.listed (h.listed hc), fun hc n hn => ?_⟩
  rcases h'.mem (h.listed hc) n hn with hn | hn
  · exact (h.mem hc n hn).imp_right (List.mem_append_left l')
  · exact .inr (List.mem_append_right l hn)

/-- Where nothing appears, any list will do. -/
theorem Announces.of_nil (h : c.Announces c' []) : c.Announces c' l :=
  ⟨h.listed, fun hc n hn => .inl ((h.mem hc n hn).resolve_right List.not_mem_nil)⟩

theorem Announces.mono (h : c.Announces c' l) (hl : ∀ n ∈ l, n ∈ l') : c.Announces c' l' :=
  ⟨h.listed, fun hc n hn => (h.mem hc n hn).imp_right (hl n)⟩

theorem isAvailable_iff {n : String} : c.isAvailable n = true ↔
    ∃ k d, c.names.get? n = some k ∧ c.data.get? k = some d ∧ d.isAvailable = true := by
  unfold isAvailable datum? canonical?
  cases c.names.get? n with
  | none => simp
  | some k => cases hd : c.data.get? k <;> simp [hd]

/-! ## Operations on data -/

/-- The names stay, and every datum follows. -/
theorem announces_of_follows (hn : c'.names = c.names)
    (kept : ∀ {k d}, c.data.get? k = some d → ∃ e, c'.data.get? k = some e)
    (back : ∀ {k e}, c'.data.get? k = some e → ∃ d, c.data.get? k = some d ∧ d.Follows l e) :
    c.Announces c' l := by
  refine ⟨fun hc => ⟨fun {n k} hk => ?_, fun {k e} he => ?_⟩, fun hc n hav => ?_⟩
  · obtain ⟨d, hd, hmem⟩ := hc.named (hn ▸ hk)
    obtain ⟨e, he⟩ := kept hd
    obtain ⟨d', hd', hf⟩ := back he
    rw [hd] at hd'
    obtain rfl := Option.some_inj.mp hd'
    exact ⟨e, he, hf.names n hmem⟩
  · obtain ⟨d, hd, -⟩ := back he
    rw [hn]
    exact hc.registered hd
  · obtain ⟨k, e, hk, he, hav⟩ := isAvailable_iff.mp hav
    obtain ⟨d, hd, hf⟩ := back he
    rw [hn] at hk
    rcases hf.available hav with hav | hall
    · exact .inl (isAvailable_iff.mpr ⟨k, d, hk, hd, hav⟩)
    · obtain ⟨d', hd', hmem⟩ := hc.named hk
      rw [hd] at hd'
      exact .inr (hall n (Option.some_inj.mp hd' ▸ hmem))

/-- Neither names nor data change. -/
theorem announces_of_same (hn : c'.names = c.names) (hd : c'.data = c.data) :
    c.Announces c' l := by
  refine announces_of_follows hn (fun {k d} hk => ⟨d, by rw [hd, hk]⟩) fun {k e} he => ?_
  rw [hd] at he
  exact ⟨e, he, .refl e⟩

theorem announces_update {k : String} {f : Datum → Datum}
    (hf : ∀ d, c.data.get? k = some d → d.Follows l (f d)) : c.Announces (c.update k f) l := by
  refine announces_of_follows rfl (fun {j d} hj => ?_) fun {j e} he => ?_
  · rw [get?_update]
    split
    · next hk =>
      rw [← hk, hj]
      exact ⟨f d, rfl⟩
    · exact ⟨d, hj⟩
  · rw [get?_update] at he
    split at he
    · next hk =>
      obtain ⟨d, hd, rfl⟩ := Option.map_eq_some_iff.mp he
      exact ⟨d, hk ▸ hd, hf d hd⟩
    · exact ⟨e, he, .refl e⟩

/-- A datum keeps its names and appears only if it was there. -/
theorem announces_update_of_le {k : String} {f : Datum → Datum}
    (hn : ∀ d : Datum, (f d).names = d.names)
    (ha : ∀ d : Datum, (f d).isAvailable = true → d.isAvailable = true) :
    c.Announces (c.update k f) l :=
  announces_update fun d _ => ⟨fun n h => by rw [hn]; exact h, fun h => .inl (ha d h)⟩

/-- A new datum can be read nowhere. -/
theorem announces_register (c : Catalog) (name : String) : c.Announces (c.register name) l := by
  unfold register
  split
  · exact .refl c
  · next hreg =>
    have hnone : c.names.get? name = none := by
      rw [← SortedMap.contains_eq_false_iff, ← Bool.not_eq_true]
      exact hreg
    have hfresh (hc : c.Listed) : c.data.get? name = none := by
      cases hd : c.data.get? name with
      | none => rfl
      | some d =>
        obtain ⟨j, hj⟩ := hc.registered hd
        rw [hnone] at hj
        cases hj
    refine ⟨fun hc => ⟨fun {n k} hk => ?_, fun {k d} hd => ?_⟩, fun hc n hav => ?_⟩
    · rw [SortedMap.get?_insert] at hk
      split at hk
      · next hn =>
        obtain rfl := Option.some_inj.mp hk
        exact ⟨.named name, SortedMap.get?_insert_self _ _ _, List.mem_singleton.mpr hn⟩
      · obtain ⟨d, hd, hmem⟩ := hc.named hk
        refine ⟨d, ?_, hmem⟩
        rw [SortedMap.get?_insert_of_ne _ _ fun he => ?_, hd]
        rw [he, hfresh hc] at hd
        cases hd
    · rw [SortedMap.get?_insert] at hd ⊢
      split
      · exact ⟨name, rfl⟩
      · next hne =>
        rw [if_neg hne] at hd
        exact hc.registered hd
    · obtain ⟨k, d, hk, hd, hav⟩ := isAvailable_iff.mp hav
      rw [SortedMap.get?_insert] at hk hd
      split at hd
      · rw [← Option.some_inj.mp hd] at hav
        cases hav
      · next hne =>
        split at hk
        · exact absurd (Option.some_inj.mp hk).symm hne
        · exact .inl (isAvailable_iff.mpr ⟨k, d, hk, hd, hav⟩)

/-- A name that is linked to an available datum is announced, whatever it stood for before. -/
theorem announces_link {name existing : String} {r : Linked} (h : c.link? name existing = some r) :
    c.Announces r.catalog r.announced := by
  unfold link? at h
  obtain ⟨k, hk, rfl⟩ := Option.map_eq_some_iff.mp h
  have hget (j : String) : (update { c with names := c.names.insert name k } k
      (·.addName name)).data.get? j =
      if j = k then (c.data.get? k).map (·.addName name) else c.data.get? j :=
    get?_update c k (·.addName name) j
  refine ⟨fun hc => ⟨fun {n j} hj => ?_, fun {j d} hd => ?_⟩, fun hc n hav => ?_⟩
  · -- the name is listed by its new datum, and every other name as before
    have hj' : (c.names.insert name k).get? n = some j := hj
    have hlist {j : String} {d : Datum} (hd : c.data.get? j = some d) (hmem : n ∈ d.names) :
        ∃ e, (update { c with names := c.names.insert name k } k
          (·.addName name)).data.get? j = some e ∧ n ∈ e.names := by
      rw [hget]
      split
      · next he =>
        rw [← he, hd]
        exact ⟨_, rfl, Datum.mem_names_addName.mpr (.inl hmem)⟩
      · exact ⟨d, hd, hmem⟩
    rw [SortedMap.get?_insert] at hj'
    split at hj'
    · next hn =>
      obtain rfl := Option.some_inj.mp hj'
      obtain ⟨d, hd, -⟩ := hc.named hk
      exact ⟨d.addName name, by rw [hget, if_pos rfl, hd, Option.map_some],
        Datum.mem_names_addName.mpr (.inr hn)⟩
    · obtain ⟨d, hd, hmem⟩ := hc.named hj'
      exact hlist hd hmem
  · show ∃ i, (c.names.insert name k).get? j = some i
    rw [hget] at hd
    have hold : ∃ d, c.data.get? j = some d := by
      split at hd
      · next he =>
        obtain ⟨d', hd', -⟩ := Option.map_eq_some_iff.mp hd
        exact ⟨d', he ▸ hd'⟩
      · exact ⟨d, hd⟩
    rw [SortedMap.get?_insert]
    split
    · exact ⟨k, rfl⟩
    · obtain ⟨d', hd'⟩ := hold
      exact hc.registered hd'
  · obtain ⟨j, d, hj, hd, hav⟩ := isAvailable_iff.mp hav
    have hj' : (c.names.insert name k).get? n = some j := hj
    have hback : ∃ d', c.data.get? j = some d' ∧ d'.isAvailable = true := by
      rw [hget] at hd
      split at hd
      · next he =>
        obtain ⟨d', hd', rfl⟩ := Option.map_eq_some_iff.mp hd
        rw [Datum.isAvailable_addName] at hav
        exact ⟨d', he ▸ hd', hav⟩
      · exact ⟨d, hd, hav⟩
    obtain ⟨d', hd', hav'⟩ := hback
    rw [SortedMap.get?_insert] at hj'
    split at hj'
    · next hn =>
      obtain rfl := Option.some_inj.mp hj'
      refine .inr ?_
      have hex : c.isAvailable existing = true := isAvailable_iff.mpr ⟨k, d', hk, hd', hav'⟩
      show n ∈ if c.isAvailable existing = true then [name] else []
      rw [if_pos hex, hn]
      exact List.mem_singleton.mpr rfl
    · exact .inl (isAvailable_iff.mpr ⟨j, d', hj', hd', hav'⟩)

/-! ## Replicas -/

/-- The first replica of a datum announces all its names. -/
theorem announces_insertReplica (c : Catalog) (k : String) (r : Replica) :
    c.Announces (c.insertReplica k r).catalog (c.insertReplica k r).announced := by
  unfold insertReplica
  cases hd : c.data.get? k with
  | none => exact .refl c
  | some d =>
    dsimp only
    split
    · exact .refl c
    · have hindex : c.Announces (c.index k r) [] :=
        announces_of_same (names_index k r) (data_index k r)
      refine (hindex.trans (announces_update (l := if d.isAvailable then [] else d.names) ?_))
      intro d' hd'
      rw [data_index, hd] at hd'
      obtain rfl := Option.some_inj.mp hd'
      refine ⟨fun _ h => h, fun _ => ?_⟩
      cases d.isAvailable with
      | true => exact .inl rfl
      | false => exact .inr fun _ h => h

theorem announces_addReplica (c : Catalog) (name : String) (r : Replica) :
    c.Announces (c.addReplica name r).catalog (c.addReplica name r).announced :=
  (announces_register c name (l := [])).trans (announces_insertReplica _ _ r)

theorem announces_retireCopy {data : String} {id : Nat} {e : CopyEnded}
    (h : c.retireCopy? data id = some e) : c.Announces e.catalog l := by
  unfold retireCopy? at h
  obtain ⟨k, -, h⟩ := Option.bind_eq_some_iff.mp h
  obtain ⟨d, -, h⟩ := Option.bind_eq_some_iff.mp h
  obtain ⟨copy, -, rfl⟩ := Option.map_eq_some_iff.mp h
  exact announces_update_of_le (fun _ => rfl) fun _ h => h

theorem announces_finishCopy {data : String} {id : Nat} {e : CopyEnded}
    (h : c.finishCopy? data id = some e) : c.Announces e.catalog e.announced := by
  unfold finishCopy? at h
  obtain ⟨e', he', rfl⟩ := Option.map_eq_some_iff.mp h
  exact (announces_retireCopy he' (l := [])).trans (announces_insertReplica _ _ _)

theorem announces_startCopy {name : String} {target : Replica} {listener : Option String}
    {r : CopyHandle × Catalog} (h : c.startCopy? name target listener = some r) :
    c.Announces r.2 l := by
  unfold startCopy? at h
  obtain ⟨k, -, h⟩ := Option.bind_eq_some_iff.mp h
  obtain ⟨d, -, h⟩ := Option.map_eq_some_iff.mp h
  split at h <;> subst h
  · exact announces_update_of_le (fun _ => rfl) fun _ h => h
  · have hnext : c.Announces { c with lastCopy := c.lastCopy + 1 } [] := announces_of_same rfl rfl
    exact hnext.trans (announces_update_of_le (fun _ => rfl) fun _ h => h)

theorem announces_listenToCopy {data listener : String} {id : Nat}
    (h : c.listenToCopy? data id listener = some c') : c.Announces c' l := by
  unfold listenToCopy? at h
  obtain ⟨k, -, h⟩ := Option.bind_eq_some_iff.mp h
  obtain ⟨d, -, h⟩ := Option.bind_eq_some_iff.mp h
  split at h
  · cases h
    exact announces_update_of_le (fun _ => rfl) fun _ h => h
  · cases h

theorem announces_markObsolete {name : String} (h : c.markObsolete? name = some c') :
    c.Announces c' l := by
  unfold markObsolete? at h
  obtain ⟨k, -, h⟩ := Option.bind_eq_some_iff.mp h
  obtain ⟨d, -, rfl⟩ := Option.map_eq_some_iff.mp h
  refine List.foldlRecOn (motive := fun b : Catalog => c.Announces b l) (c.holders d).toList _
    (announces_update_of_le (fun _ => rfl) fun _ h => h) fun b hb host _ => ?_
  have hhosts (hosts : SortedMap String HostEntry) : b.Announces { b with hosts } [] :=
    announces_of_same rfl rfl
  have hl : l ++ [] = l := List.append_nil l
  exact hl ▸ hb.trans (hhosts _)

/-- A change of a datum that is registered first. -/
theorem announces_registerUpdate (name : String) {f : Datum → Datum}
    (hn : ∀ d : Datum, (f d).names = d.names)
    (ha : ∀ d : Datum, (f d).isAvailable = true → d.isAvailable = true) :
    c.Announces ((c.register name).update (c.canonicalOf name) f) l :=
  (announces_register c name (l := [])).trans (announces_update_of_le hn ha)

/-! ## Departures -/

theorem isAvailable_without {host : String} {d : Datum}
    (h : (c.without host d).isAvailable = true) : d.isAvailable = true := by
  unfold Datum.isAvailable at h ⊢
  rw [Bool.not_eq_true', ← Bool.not_eq_true, SortedSet.isEmpty_iff] at h ⊢
  exact fun hnone => h fun r hr => hnone r (SortedSet.mem_filter.mp hr).1

theorem announces_removeHost (c : Catalog) (name host : String) :
    c.Announces (c.removeHost name host).2 l := by
  cases hdn : c.datum? name with
  | none =>
    rw [removeHost_of_none hdn]
    exact .refl c
  | some d =>
    obtain ⟨k, hn, hd⟩ := Option.bind_eq_some_iff.mp hdn
    rw [removeHost_eq hn hd]
    have hhosts : c.Announces { c with
        hosts := c.hosts.modify host fun e => { e with data := e.data.erase k } } [] :=
      announces_of_same rfl rfl
    refine hhosts.trans (announces_update fun d' hd' => ?_)
    have hd'' : c.data.get? k = some d' := hd'
    rw [hd] at hd''
    obtain rfl := Option.some_inj.mp hd''
    exact ⟨fun _ h => h, fun h => .inl (isAvailable_without h)⟩

theorem announces_departHost (c : Catalog) (host : String) :
    c.Announces (c.departHost host).2 l :=
  (departHost_preserves (P := fun b => c.Announces b [])
    (fun name hb => hb.trans (announces_removeHost _ name host (l := [])))
    (fun hb => hb.trans (announces_of_same rfl rfl (l := []))) (.refl c)).of_nil

end Catalog

/-! ## Workers leaving, and passes -/

namespace Pool

variable {p : Pool} {c : Catalog} {key : WorkerKey} {l : List String}

theorem announces_departs {d : Departure} (h : p.Departs c key d) : c.Announces d.catalog l := by
  rcases h.cases_host with ⟨-, -, hc⟩ | ⟨-, he⟩
  · rw [hc]
    exact .refl c
  · rw [show d.catalog = (c.departHost key.name).2 from congrArg Prod.snd he]
    exact Catalog.announces_departHost c key.name

theorem announces_perform (p : Pool) (c : Catalog) (o : Operation) :
    c.Announces (p.perform c o).catalog l := by
  cases o with
  | add _ _ _ => exact .refl c
  | look _ => exact .refl c
  | reduce key amount =>
    dsimp only [perform]
    generalize p.reduce key amount = r
    obtain ⟨answer, q⟩ := r
    cases answer <;> exact .refl c
  | remove key hook =>
    dsimp only [perform]
    cases h : p.requestRemoval? c key hook with
    | none => exact .refl c
    | some r =>
      cases r with
      | left d => exact announces_departs (.asked h)
      | draining _ _ => exact .refl c
  | lose key =>
    dsimp only [perform]
    cases h : p.lose? c key with
    | none => exact .refl c
    | some d => exact announces_departs (.lost h)

end Pool

/-- No pass lets anything appear, disturbed or not. -/
theorem Pass.Amid.announces {p q : Pass} {l : List String} (h : p.Amid q) :
    p.catalog.Announces q.catalog l := by
  suffices h : p.catalog.Announces q.catalog [] from h.of_nil
  induction h with
  | start => exact .refl p.catalog
  | score _ _ _ ih => exact ih
  | @disturb q d _ ih => exact ih.trans (q.pool.announces_perform q.catalog d.operation (l := []))
  | @bind q x free pool _ _ ih =>
    rw [catalog_bind]
    exact ih
  | @revise q x _ ih =>
    obtain ⟨views, hv⟩ := q.revise_eq x
    rw [hv]
    exact ih
  | report _ ih => exact ih

end TaskGrid
