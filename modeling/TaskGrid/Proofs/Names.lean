import TaskGrid.Proofs.HostIndex

/-!
# Names and the data they stand for

The catalog says twice which names belong to a datum: a table gives the canonical name of every
name, and a datum lists its names.  A link writes both, but a name that it takes from another datum
stays in the list of that one.  So a datum lists every name that ever stood for it, and the two
agree until a link takes a name from a datum, and never again afterwards.

While they agree a canonical name stands for itself.  That is what everything relies on that keeps
canonical names: the handles of copies, the orders to save a datum and the indexes.  A link that
takes a canonical name away makes the datum unreachable under it.

* `Catalog.Lists`, `Catalog.NamesAgree`: what data list, and what their names stand for.
* `Catalog.Step.enlists`: what one item does to the lists.
* `Catalog.Carries`, `Catalog.Resolves`: canonical names that are kept elsewhere, and names that
  reach their datum.
* `Machine.Course.namesAgree_iff`: when names and data agree.
-/

namespace TaskGrid

namespace Catalog

variable {c c' b : Catalog} {k n : String} {proper : Bool}

/-- The datum of canonical name `k` lists the name `n`. -/
def Lists (c : Catalog) (k n : String) : Prop := ∃ d, c.data.get? k = some d ∧ n ∈ d.names

/-- A datum lists a name exactly if the name stands for it. -/
def NamesAgree (c : Catalog) : Prop := ∀ k n, c.Lists k n ↔ c.canonical? n = some k

theorem Listed.lists (hc : c.Listed) (hn : c.canonical? n = some k) : c.Lists k n := hc.named hn

theorem lists_iff : c.Lists k n ↔ ∃ l, (c.data.get? k).map Datum.names = some l ∧ n ∈ l := by
  simp [Lists]

theorem SameLists.lists_iff (h : c.SameLists c') : c'.Lists k n ↔ c.Lists k n := by
  rw [Catalog.lists_iff, Catalog.lists_iff, h k]

theorem SameLists.exists_datum (h : c.SameLists c') {e : Datum} (he : c'.data.get? k = some e) :
    ∃ d, c.data.get? k = some d ∧ e.names = d.names := by
  have hk := h k
  rw [he] at hk
  obtain ⟨d, hd, hn⟩ := Option.map_eq_some_iff.mp hk.symm
  exact ⟨d, hd, hn.symm⟩

/-! ## What an item does to the lists -/

theorem sameLists_insertReplica (c : Catalog) (k : String) (r : Replica) :
    c.SameLists (c.insertReplica k r).catalog := by
  rcases c.insertReplica_cases k r with hsame | ⟨d, -, -, hnew⟩
  · rw [hsame]
    exact fun _ => rfl
  · have hindex : c.SameLists (c.index k r) := fun _ => by rw [data_index]
    rw [hnew]
    exact hindex.trans (sameLists_update _ k fun _ => rfl)

theorem sameLists_removeHost (c : Catalog) (name host : String) :
    c.SameLists (c.removeHost name host).2 := by
  rcases c.removeHost_cases name host with ⟨-, heq⟩ | ⟨k, d, hn, hd, -⟩
  · rw [heq]
    exact fun _ => rfl
  · intro j
    rw [get?_removeHost hn hd]
    split
    · next hj =>
      rw [hj, hd]
      rfl
    · rfl

theorem sameLists_departHost (c : Catalog) (host : String) : c.SameLists (c.departHost host).2 :=
  departHost_preserves (P := fun b => c.SameLists b)
    (fun name hb => hb.trans (sameLists_removeHost _ name host)) (fun hb => hb) fun _ => rfl

theorem Departures.sameLists (h : Departures c c') : c.SameLists c' :=
  h.preserves (P := fun b => c.SameLists b)
    (fun b host hb => hb.trans (sameLists_departHost b host))
    fun _ => rfl

/-- Between two catalogs data keep the names that they list, and list a new one only if it stands
for them; a new datum lists its canonical name. -/
structure Enlists (c c' : Catalog) : Prop where
  /-- No name leaves a list. -/
  kept : ∀ {k n}, c.Lists k n → c'.Lists k n
  /-- A name that appears in the list of a datum stands for it. -/
  new : ∀ {k n}, c'.Lists k n → c.Lists k n ∨ c'.canonical? n = some k
  /-- A datum that appears lists its canonical name. -/
  born : ∀ {k e}, c'.data.get? k = some e → (∃ d, c.data.get? k = some d) ∨ k ∈ e.names

theorem SameLists.enlists (h : c.SameLists c') : Enlists c c' where
  kept hk := h.lists_iff.mpr hk
  new hk := .inl (h.lists_iff.mp hk)
  born he := by
    obtain ⟨d, hd, -⟩ := h.exists_datum he
    exact .inl ⟨d, hd⟩

theorem Enlists.trans_same (h : Enlists c b) (hs : b.SameLists c') (hn : c'.names = b.names) :
    Enlists c c' where
  kept hk := hs.lists_iff.mpr (h.kept hk)
  new hk := by
    rw [canonical?_congr hn]
    exact h.new (hs.lists_iff.mp hk)
  born he := by
    obtain ⟨d, hd, hnames⟩ := hs.exists_datum he
    rw [hnames]
    exact h.born hd

/-- A datum that is registered lists the name under which it is. -/
theorem enlists_register (hc : c.Listed) (name : String) : Enlists c (c.register name) := by
  unfold register
  split
  · exact SameLists.enlists fun _ => rfl
  · next hreg =>
    have hfresh : c.data.get? name = none := by
      cases hd : c.data.get? name with
      | none => rfl
      | some d =>
        obtain ⟨j, hj⟩ := hc.registered hd
        exact absurd (SortedMap.contains_iff.mpr ⟨j, hj⟩) hreg
    refine ⟨?_, ?_, fun {k e} he => ?_⟩
    · rintro k n ⟨d, hd, hmem⟩
      have hne : k ≠ name := by
        rintro rfl
        rw [hfresh] at hd
        cases hd
      exact ⟨d, (SortedMap.get?_insert_of_ne _ _ hne).trans hd, hmem⟩
    · rintro k n ⟨d, hd, hmem⟩
      rw [SortedMap.get?_insert] at hd
      split at hd
      · next hk =>
        obtain rfl := Option.some_inj.mp hd
        obtain rfl := List.mem_singleton.mp hmem
        exact .inr ((SortedMap.get?_insert_self _ _ _).trans (congrArg some hk.symm))
      · exact .inl ⟨d, hd, hmem⟩
    · rw [SortedMap.get?_insert] at he
      split at he
      · next hk =>
        obtain rfl := Option.some_inj.mp he
        exact .inr (List.mem_singleton.mpr hk)
      · exact .inl ⟨e, he⟩

/-- A link adds the name to the list of its new datum, and takes it from no list. -/
theorem enlists_link {name existing : String} {l : Linked} (h : c.link? name existing = some l) :
    Enlists c l.catalog := by
  unfold link? at h
  obtain ⟨j, -, rfl⟩ := Option.map_eq_some_iff.mp h
  have hget (k : String) : (update { c with names := c.names.insert name j } j
      (·.addName name)).data.get? k =
      if k = j then (c.data.get? j).map (·.addName name) else c.data.get? k :=
    get?_update c j (·.addName name) k
  refine ⟨?_, ?_, fun {k e} he => ?_⟩
  · rintro k n ⟨d, hd, hmem⟩
    by_cases hk : k = j
    · subst hk
      exact ⟨d.addName name, by rw [hget, if_pos rfl, hd, Option.map_some],
        Datum.mem_names_addName.mpr (.inl hmem)⟩
    · exact ⟨d, by rw [hget, if_neg hk, hd], hmem⟩
  · rintro k n ⟨e, he, hmem⟩
    rw [hget] at he
    split at he
    · next hk =>
      obtain ⟨d, hd, rfl⟩ := Option.map_eq_some_iff.mp he
      rcases Datum.mem_names_addName.mp hmem with hmem | rfl
      · exact .inl ⟨d, hk ▸ hd, hmem⟩
      · exact .inr ((SortedMap.get?_insert_self _ _ _).trans (congrArg some hk.symm))
    · exact .inl ⟨e, he, hmem⟩
  · rw [hget] at he
    split at he
    · next hk =>
      obtain ⟨d, hd, -⟩ := Option.map_eq_some_iff.mp he
      exact .inl ⟨d, hk ▸ hd⟩
    · exact .inl ⟨e, he⟩

theorem Change.enlists (h : Change proper c c') (hc : c.Listed) : Enlists c c' := by
  cases h with
  | register name => exact enlists_register hc name
  | link linked _ => exact enlists_link linked
  | addReplica name r =>
    exact (enlists_register hc name).trans_same (sameLists_insertReplica _ _ r)
      (names_insertReplica _ _ r)
  | finishCopy h =>
    obtain ⟨e, he, rfl⟩ := Option.map_eq_some_iff.mp h
    exact ((alike_retireCopy he).listed.trans (sameLists_insertReplica _ _ _)).enlists
  | removeHost name host => exact (sameLists_removeHost c name host).enlists
  | departHost host => exact (sameLists_departHost c host).enlists
  | forgetHost host _ => exact SameLists.enlists fun _ => rfl
  | alike h => exact h.listed.enlists

theorem Step.enlists (h : Step proper c c') (hc : c.Listed) : Enlists c c' := by
  cases h with
  | departures h => exact h.sameLists.enlists
  | change h => exact h.enlists hc
  | registerUpdate name h => exact (enlists_register hc name).trans_same h.listed h.names

/-! ## What names stand for -/

theorem Change.keepsNames (h : Change true c c') : c.KeepsNames c' := by
  intro n k hn
  have hsame {b : Catalog} (hb : b.names = c.names) : b.canonical? n = some k := by
    rwa [canonical?_congr hb]
  cases h with
  | register name => exact canonical?_register hn name
  | @link name existing l linked free =>
    have hk := free rfl
    obtain ⟨j, -, rfl⟩ := Option.map_eq_some_iff.mp linked
    show (c.names.insert name j).get? n = some k
    rw [SortedMap.get?_insert]
    split
    · next he => rw [hk k (he ▸ hn)]
    · exact hn
  | addReplica name r => exact canonical?_addReplica hn name r
  | finishCopy h =>
    obtain ⟨e, he, rfl⟩ := Option.map_eq_some_iff.mp h
    exact hsame ((names_insertReplica _ _ _).trans (alike_retireCopy he).names)
  | removeHost name host => exact hsame (names_removeHost c name host)
  | departHost host => exact hsame (names_departHost c host)
  | forgetHost _ hf => cases hf
  | alike h => exact hsame h.names

theorem Step.keepsNames (h : Step true c c') : c.KeepsNames c' := by
  intro n k hn
  cases h with
  | departures h =>
    exact h.preserves (P := fun b => b.canonical? n = some k)
      (fun b host hb => by rwa [canonical?_congr (names_departHost b host)]) hn
  | change h => exact h.keepsNames n k hn
  | registerUpdate name h =>
    rw [canonical?_congr h.names]
    exact canonical?_register hn name

/-! ## Canonical names that are kept elsewhere -/

/-- A canonical name that a catalog hands out, or keeps in an index. -/
inductive Carries (c : Catalog) (k : String) : Prop where
  /-- The handle of a copy that is started or joined. -/
  | handle {name : String} {target : Replica} {listener : Option String} {r : CopyHandle × Catalog}
    (h : c.startCopy? name target listener = some r) (hk : r.1.data = k)
  /-- The handle of a copy in flight. -/
  | inFlight {name : String} {x : CopyHandle} (h : x ∈ c.copies name) (hk : x.data = k)
  /-- An order to save a datum when a host departs, perhaps after others. -/
  | order {b : Catalog} {host : String} {o : RescueOrder} (hb : Departures c b)
    (h : o ∈ (b.departHost host).1) (hk : o.data = k)
  /-- The index of a host. -/
  | onHost {host : String} (h : k ∈ c.placedOn host)
  /-- The index of a disk. -/
  | onDisk {disk : String} (h : k ∈ c.filedOn disk)

/-- A canonical name reaches its datum: whoever has it finishes the copies of the datum and takes
its replicas, as under any other name of it. -/
structure Resolves (c : Catalog) (k : String) : Prop where
  /-- The name stands for a datum, itself. -/
  datum : c.canonical? k = some k ∧ ∃ d, c.data.get? k = some d
  /-- Copies finish under it. -/
  finishCopy : ∀ n id, c.canonical? n = some k → c.finishCopy? k id = c.finishCopy? n id
  /-- Hosts are removed under it. -/
  removeHost : ∀ n host, c.canonical? n = some k → c.removeHost k host = c.removeHost n host

theorem resolves_of_canonical? (hk : c.canonical? k = some k) {d : Datum}
    (hd : c.data.get? k = some d) : c.Resolves k where
  datum := ⟨hk, d, hd⟩
  finishCopy n id hn := by rw [finishCopy?, finishCopy?, retireCopy?, retireCopy?, hk, hn]
  removeHost n host hn := by rw [Catalog.removeHost, Catalog.removeHost, hk, hn]

/-- The orders of a departure are for data that the indexes place on the host. -/
theorem mem_dataOn_of_mem_departHost {host : String} {o : RescueOrder}
    (ho : o ∈ (c.departHost host).1) : o.data ∈ c.dataOn host := by
  have hall : ∀ o ∈ (removeAll host ([], c) (c.dataOn host).toList).1, o.data ∈ c.dataOn host := by
    refine List.foldlRecOn
      (motive := fun r : List RescueOrder × Catalog => ∀ o ∈ r.1, o.data ∈ c.dataOn host)
      (c.dataOn host).toList _ (fun _ ho => absurd ho List.not_mem_nil) ?_
    intro r hr name hname o ho
    rcases List.mem_append.mp ho with ho | ho
    · exact hr o ho
    · obtain ⟨s, -, rfl⟩ := List.mem_map.mp ho
      exact hname
  exact hall o ho

/-- What a catalog carries are canonical names of its data. -/
theorem Carries.exists_datum (h : c.Carries k) (hplaced : c.Placed)
    (hfiled : ∀ k disk, k ∈ c.filedOn disk → ∃ d, c.data.get? k = some d) :
    ∃ d, c.data.get? k = some d := by
  have hindexed {b : Catalog} (hb : b.Placed) {k host : String} (hk : k ∈ b.placedOn host) :
      ∃ d, b.data.get? k = some d := by
    obtain ⟨_, ⟨d, hd, -⟩, -⟩ := hb k host hk
    exact ⟨d, hd⟩
  cases h with
  | handle h hk =>
    unfold startCopy? at h
    obtain ⟨j, -, h⟩ := Option.bind_eq_some_iff.mp h
    obtain ⟨d, hd, h⟩ := Option.map_eq_some_iff.mp h
    refine ⟨d, ?_⟩
    split at h <;> subst h <;> exact hk ▸ hd
  | @inFlight name x h hk =>
    unfold copies at h
    cases hj : c.canonical? name with
    | none => simp [hj] at h
    | some j =>
      cases hd : c.data.get? j with
      | none => simp [hj, hd] at h
      | some d =>
        simp only [hj, hd, Option.bind_some, Option.map_some, Option.getD_some] at h
        obtain ⟨y, -, rfl⟩ := List.mem_map.mp h
        exact ⟨d, hk ▸ hd⟩
  | @order b host o hb h hk =>
    subst hk
    have hback {d : Datum} (hd : b.data.get? o.data = some d) :
        ∃ d, c.data.get? o.data = some d := by
      obtain ⟨d, hd, -⟩ := hb.sameLists.exists_datum hd
      exact ⟨d, hd⟩
    rcases mem_dataOn.mp (mem_dataOn_of_mem_departHost h) with hp | ⟨disk, -, hf⟩
    · obtain ⟨d, hd⟩ :=
        hindexed (hb.preserves (fun _ host hb => Placed.departHost hb host) hplaced) hp
      exact hback hd
    · refine hfiled _ disk ?_
      have hsame := hb.preserves (P := fun b => b.filedOn disk = c.filedOn disk)
        (fun b host hb => (filedOn_departHost b host disk).trans hb) rfl
      rwa [hsame] at hf
  | onHost h => exact hindexed hplaced h
  | onDisk h => exact hfiled k _ h

end Catalog

/-! ## Names that are taken -/

/-- Whether at a moment a link takes a name from another datum. -/
def Moment.takesName (x : Moment) : Bool :=
  match x.item with
  | .obey _ (.link name existing) => (x.world.catalog.canonical? name).any fun k =>
      (x.world.catalog.canonical? existing).any fun k' => k ≠ k'
  | _ => false

/-- A name that is taken stood for one datum and stands for another afterwards. -/
theorem Moment.exists_of_takesName {x : Moment} (h : x.takesName = true) : ∃ n k k', k ≠ k' ∧
    x.world.catalog.canonical? n = some k ∧
    (x.world.carryOut x.item).1.catalog.canonical? n = some k' := by
  obtain ⟨w, i⟩ := x
  unfold takesName at h
  split at h
  · next token name existing hi =>
    dsimp only at hi
    subst hi
    obtain ⟨k, hk, h⟩ := (Option.any_eq_true _ _).mp h
    obtain ⟨k', hk', hne⟩ := (Option.any_eq_true _ _).mp h
    refine ⟨name, k, k', of_decide_eq_true hne, hk, ?_⟩
    have hl : w.catalog.link? name existing = some _ := Option.map_eq_some_iff.mpr ⟨k', hk', rfl⟩
    show (w.link token name existing).1.catalog.canonical? name = some k'
    rw [World.link, hl]
    exact SortedMap.get?_insert_self _ _ _
  · cases h

theorem World.keepsNames_of_takesName_eq_false {w : World} {i : Item}
    (h : Moment.takesName ⟨w, i⟩ = false) : w.catalog.KeepsNames (w.carryOut i).1.catalog := by
  by_cases hp : Moment.isProper ⟨w, i⟩ = true
  · exact (step_carryOut fun _ => hp).keepsNames
  · -- what is not proper and takes no name forgets a host
    obtain ⟨token, host, rfl⟩ : ∃ token host, i = .obey token (.forgetHost host) := by
      cases i with
      | obey token c =>
        cases c with
        | forgetHost host => exact ⟨token, host, rfl⟩
        | link name existing =>
          refine absurd (?_ : Moment.isProper ⟨w, .obey token (.link name existing)⟩ = true) hp
          unfold Moment.takesName at h
          unfold Moment.isProper
          cases hk : w.catalog.canonical? name <;> cases hk' : w.catalog.canonical? existing <;>
            simp_all
        | _ => exact absurd rfl hp
      | _ => exact absurd rfl hp
    exact fun _ _ hn => hn

namespace Machine

variable {rule : Conduct} {policy : Policy} {localNodes : List String} {withholds : Bool}
  {limit : Nat} {disturbances : List Disturbance} {t : List Moment} {m : Machine}

/-- The catalog right after a moment of a course is one of its catalogs. -/
theorem Course.mem_catalogs_after {w₀ : World} (h : Course rule w₀ t m) {x : Moment} (hx : x ∈ t) :
    (x.world.carryOut x.item).1.catalog ∈ m.catalogs t := by
  induction h with
  | start => cases hx
  | ask _ _ _ ih => exact ih hx
  | answer _ _ _ ih => exact ih hx
  | item _ ih =>
    rcases List.mem_cons.mp hx with rfl | hx
    · exact List.mem_cons_self
    · exact List.mem_cons_of_mem _ (ih hx)

/-- Every datum lists its canonical name. -/
theorem Course.lists_self
    (h : Course rule { World.fresh policy localNodes withholds limit with disturbances } t m)
    {k : String} {d : Datum} (hd : m.world.catalog.data.get? k = some d) :
    m.world.catalog.Lists k k := by
  refine h.catalog_induction (P := fun c => ∀ d, c.data.get? k = some d → c.Lists k k)
    (fun d hd => by cases hd) (fun hl hs ih d hd => ?_) d hd
  have henlists := hs.enlists hl
  rcases henlists.born hd with ⟨d', hd'⟩ | hmem
  · exact henlists.kept (ih d' hd')
  · exact ⟨d, hd, hmem⟩

/-- A datum lists every name that stood for it at some time, and no others. -/
theorem Course.lists_iff
    (h : Course rule { World.fresh policy localNodes withholds limit with disturbances } t m)
    {k n : String} :
    m.world.catalog.Lists k n ↔ ∃ c ∈ m.catalogs t, c.canonical? n = some k := by
  constructor
  · refine h.exists_origin (P := fun c => c.Lists k n) ?_ fun hc hs => (hs.enlists hc).new
    rintro ⟨d, hd, -⟩
    cases hd
  · rintro ⟨c, hc, hn⟩
    obtain ⟨t', m', h', -, rfl⟩ := h.of_mem_catalogs hc
    exact h.holds_since (P := fun c => c.Lists k n) (fun hc hs => (hs.enlists hc).kept) hc
      (h'.listed_marked.1.lists hn)

/-- A datum lists its canonical name ever since it is there. -/
theorem Course.lists_since
    (h : Course rule { World.fresh policy localNodes withholds limit with disturbances } t m)
    {c : Catalog} (hc : c ∈ m.catalogs t) {k : String} {d : Datum} (hd : c.data.get? k = some d) :
    m.world.catalog.Lists k k := by
  obtain ⟨t', m', h', -, rfl⟩ := h.of_mem_catalogs hc
  exact h.holds_since (P := fun c => c.Lists k k) (fun hc hs => (hs.enlists hc).kept) hc
    (h'.lists_self hd)

/-- What the catalogs of a course carried are canonical names of data. -/
theorem Course.lists_of_carries
    (h : Course rule { World.fresh policy localNodes withholds limit with disturbances } t m)
    {c : Catalog} (hc : c ∈ m.catalogs t) {k : String} (hk : c.Carries k) :
    m.world.catalog.Lists k k := by
  have hfiled {t' : List Moment} {m' : Machine}
      (h' : Course rule { World.fresh policy localNodes withholds limit with disturbances } t' m')
      (k disk : String) (hk : k ∈ m'.world.catalog.filedOn disk) :
      ∃ d, m'.world.catalog.data.get? k = some d := by
    obtain ⟨c, hc, _, d, hd, -⟩ := h'.exists_holds_of_filedOn hk
    obtain ⟨e, he, -⟩ := h'.lists_since hc hd
    exact ⟨e, he⟩
  obtain ⟨t', m', h', -, rfl⟩ := h.of_mem_catalogs hc
  obtain ⟨d, hd⟩ := hk.exists_datum h'.placed (hfiled h')
  exact h.lists_since hc hd

/-- A name that is taken from no datum stands for what it stood for. -/
theorem Course.canonical?_since
    (h : Course rule { World.fresh policy localNodes withholds limit with disturbances } t m)
    (hnone : ∀ x ∈ t, x.takesName = false) {c : Catalog} (hc : c ∈ m.catalogs t) {k n : String}
    (hn : c.canonical? n = some k) : m.world.catalog.canonical? n = some k := by
  induction h with
  | start =>
    obtain rfl := List.mem_singleton.mp hc
    exact hn
  | ask _ _ _ ih => exact ih hnone hc
  | answer _ _ _ ih => exact ih hnone hc
  | @item t w i rest _ ih =>
    rcases List.mem_cons.mp hc with rfl | hc
    · exact hn
    · exact World.keepsNames_of_takesName_eq_false (hnone _ List.mem_cons_self) n k
        (ih (fun x hx => hnone x (List.mem_cons_of_mem _ hx)) hc)

/-- A datum lists exactly the names that stood for it at some time.  So names and data agree exactly
as long as no link takes a name from a datum, and then every canonical name that was ever carried
reaches its datum. -/
theorem Course.namesAgree_iff
    (h : Course rule { World.fresh policy localNodes withholds limit with disturbances } t m) :
    (∀ k n, m.world.catalog.Lists k n ↔ ∃ c ∈ m.catalogs t, c.canonical? n = some k) ∧
      (m.world.catalog.NamesAgree ↔ ∀ x ∈ t, x.takesName = false) ∧
      (m.world.catalog.NamesAgree →
        ∀ c ∈ m.catalogs t, ∀ k, c.Carries k → m.world.catalog.Resolves k) := by
  refine ⟨fun k n => h.lists_iff, ⟨fun hagree x hx => ?_, fun hnone k n => ?_⟩,
    fun hagree c hc k hk => ?_⟩
  · -- a name that was taken is listed by both of its data
    rw [← Bool.not_eq_true]
    intro htakes
    obtain ⟨n, k, k', hne, hk, hk'⟩ := Moment.exists_of_takesName htakes
    have h₁ := (hagree k n).mp (h.lists_iff.mpr ⟨_, mem_catalogs_of_mem hx m, hk⟩)
    have h₂ := (hagree k' n).mp (h.lists_iff.mpr ⟨_, h.mem_catalogs_after hx, hk'⟩)
    rw [h₁, Option.some_inj] at h₂
    exact hne h₂
  · refine ⟨fun hl => ?_, h.listed_marked.1.lists⟩
    obtain ⟨c, hc, hn⟩ := h.lists_iff.mp hl
    exact h.canonical?_since hnone hc hn
  · obtain ⟨d, hd, hmem⟩ := h.lists_of_carries hc hk
    exact Catalog.resolves_of_canonical? ((hagree k k).mp ⟨d, hd, hmem⟩) hd

/-! ### A name that is linked twice -/

/-- A datum is registered. -/
def introducing : Machine := asked (.fresh .fifo [] false 8) 0 (.register "d")

/-- It gets a further name. -/
def nicknaming : Machine := asked (introducing.advance 2).world 1 (.link "z" "d")

/-- A second datum is registered. -/
def accompanying : Machine := asked (nicknaming.advance 2).world 2 (.register "e")

/-- The further name is linked to the second datum. -/
def poaching : Machine := asked (accompanying.advance 2).world 3 (.link "z" "e")

/-- The moments of the grid until the name is linked again. -/
def accompanied : List Moment :=
  moments 2 accompanying ++ (moments 2 nicknaming ++ (moments 2 introducing ++ []))

theorem course_accompanying :
    Course (.quiet fun _ => True) { World.fresh .fifo [] false 8 with disturbances := [] }
      accompanied ⟨(accompanying.advance 2).world, []⟩ :=
  ((Course.start.call 0 2 trivial (by decide +kernel)).call 1 2 trivial (by decide +kernel)).call
    2 2 trivial (by decide +kernel)

/-- Until then names and data agree. -/
theorem namesAgree_accompanying : (accompanying.advance 2).world.catalog.NamesAgree := by
  have hnone : accompanied.all (fun x => !x.takesName) = true := by decide +kernel
  refine course_accompanying.namesAgree_iff.2.1.mpr fun x hx => ?_
  have hx' := List.all_eq_true.mp hnone x hx
  rwa [Bool.not_eq_true'] at hx'

/-- Afterwards the first datum lists a name that stands for the second. -/
theorem exists_course_not_namesAgree : ∃ t m,
    Course (.quiet fun _ => True) { World.fresh .fifo [] false 8 with disturbances := [] } t m ∧
      m.world.catalog.Lists "d" "z" ∧ m.world.catalog.canonical? "z" = some "e" ∧
      ¬ m.world.catalog.NamesAgree := by
  have hcourse := course_accompanying.call 3 2 (c := .link "z" "e") trivial (by decide +kernel)
  rw [show asked _ 3 _ = poaching from rfl] at hcourse
  have hlists : (poaching.advance 2).world.catalog.Lists "d" "z" :=
    ⟨{ names := ["d", "z"] }, by decide +kernel, by decide +kernel⟩
  have hstands : (poaching.advance 2).world.catalog.canonical? "z" = some "e" := by decide +kernel
  refine ⟨_, _, hcourse, hlists, hstands, fun hagree => ?_⟩
  have hfirst := (hagree "d" "z").mp hlists
  dsimp only at hfirst
  rw [hstands] at hfirst
  exact absurd (Option.some_inj.mp hfirst) (by decide)

/-! ### A canonical name that is taken -/

/-- A datum is on one host. -/
def owning : Machine := asked (.fresh .fifo [] false 8) 0 (.addReplica "d" (.ownFile "n" "/d"))

/-- It gets a further name. -/
def rechristening : Machine := asked (owning.advance 3).world 1 (.link "z" "d")

/-- A second datum is on another host. -/
def rivalling : Machine :=
  asked (rechristening.advance 3).world 2 (.addReplica "e" (.ownFile "m" "/e"))

/-- The canonical name of the first is linked to the second. -/
def usurping : Machine := asked (rivalling.advance 3).world 3 (.link "d" "e")

theorem course_rivalling :
    Course (.quiet fun _ => True) { World.fresh .fifo [] false 8 with disturbances := [] }
      (moments 3 rivalling ++ (moments 3 rechristening ++ (moments 3 owning ++ [])))
      ⟨(rivalling.advance 3).world, []⟩ :=
  ((Course.start.call 0 3 trivial (by decide +kernel)).call 1 3 trivial (by decide +kernel)).call
    2 3 trivial (by decide +kernel)

/-- When the canonical name of a datum is taken, the datum can be lost in silence: all its replicas
leave with a host, and the departure of the host orders nothing. -/
theorem exists_course_lost_in_silence : ∃ t m,
    Course (.quiet fun _ => True) { World.fresh .fifo [] false 8 with disturbances := [] } t m ∧
      (∃ d, m.world.catalog.datum? "z" = some d ∧ m.world.catalog.LostWith "n" d) ∧
      (m.world.catalog.departHost "n").1 = [] := by
  have hcourse := course_rivalling.call 3 3 (c := .link "d" "e") trivial (by decide +kernel)
  rw [show asked _ 3 _ = usurping from rfl] at hcourse
  refine ⟨_, _, hcourse, ?_⟩
  refine ⟨⟨{ (Datum.named "d").addReplica (.ownFile "n" "/d") with names := ["d", "z"] },
    by decide +kernel, ⟨_, SortedSet.mem_insert.mpr (.inl rfl)⟩, fun r hr => ?_⟩,
    by decide +kernel⟩
  rcases SortedSet.mem_insert.mp hr with rfl | hr
  · rfl
  · exact absurd hr (SortedSet.not_mem_empty r)

end Machine

end TaskGrid
