import TaskGrid.Proofs.Catalog

/-!
# The departure of a host is exact

When a host departs from a catalog in order, exactly the replicas leave that nobody could read any
more, and exactly the data are handed out to be saved that would have no replica left.  Nothing is
found on the host afterwards, by any of the ways in which it could be found.

* `Replica.LeavesWith`: which replicas leave.
* `Catalog.removeAll_spec`: taking the leaving replicas from several data.
* `Catalog.exists_mem_ordersOf_iff`: which data have to be saved.
* `Catalog.departsExactly_departHost`: the whole departure.
-/

namespace TaskGrid

/-! ## Mounts -/

namespace Mounts

theorem mem_hostsOf {m : Mounts} {disk host point : String} :
    (host, point) ∈ m.hostsOf disk ↔ m.pointOf? disk host = some point := by
  unfold hostsOf pointOf?
  rw [SortedMap.mem_entries_iff]
  cases m.disks.get? disk <;> simp

theorem mem_disksOf {m : Mounts} {disk host : String} :
    disk ∈ m.disksOf host ↔ ∃ point, m.pointOf? disk host = some point := by
  unfold disksOf pointOf?
  simp only [List.mem_map, List.mem_filter, Option.bind_eq_some_iff]
  constructor
  · rintro ⟨⟨d, hosts⟩, ⟨he, hc⟩, rfl⟩
    obtain ⟨point, hp⟩ := SortedMap.contains_iff.mp hc
    exact ⟨point, hosts, SortedMap.mem_entries_iff.mp he, hp⟩
  · rintro ⟨point, hosts, he, hp⟩
    have hin : hosts.contains host = true := SortedMap.contains_iff.mpr ⟨point, hp⟩
    exact ⟨(disk, hosts), ⟨SortedMap.mem_entries_iff.mpr he, hin⟩, rfl⟩

theorem pointOf?_unmountHost (m : Mounts) (host disk h : String) :
    (m.unmountHost host).pointOf? disk h = if h = host then none else m.pointOf? disk h := by
  unfold unmountHost pointOf?
  rw [SortedMap.get?_mapValues]
  cases hd : m.disks.get? disk with
  | none => simp
  | some hosts =>
    rw [Option.map_some, Option.bind_some, SortedMap.get?_erase]
    rfl

theorem hasOther_eq_false_iff {m : Mounts} {disk host : String} :
    m.hasOther disk host = false ↔ ∀ h point, m.pointOf? disk h = some point → h = host := by
  unfold hasOther
  rw [List.any_eq_false]
  constructor
  · intro hall h point hp
    have he := hall (h, point) (mem_hostsOf.mpr hp)
    simpa using he
  · rintro hall ⟨h, point⟩ he
    simpa using hall h point (mem_hostsOf.mp he)

end Mounts

/-- A replica leaves with a host if it is a file or an object of that host, or the file of a shared
disk that the host mounts and no other host does. -/
def Replica.LeavesWith (m : Mounts) (host : String) : Replica → Prop
  | .ownFile h _ => h = host
  | .binding h _ => h = host
  | .diskFile disk _ =>
    (∃ point, m.pointOf? disk host = some point) ∧
      ∀ h point, m.pointOf? disk h = some point → h = host
  | .persistent _ => False

namespace Catalog

variable {c c' : Catalog} {host : String}

theorem leavesWith_iff {r : Replica} : c.leavesWith host r = true ↔ r.LeavesWith c.mounts host := by
  cases r with
  | ownFile h _ => simp [leavesWith, Replica.LeavesWith]
  | binding h _ => simp [leavesWith, Replica.LeavesWith]
  | persistent _ => simp [leavesWith, Replica.LeavesWith]
  | diskFile disk _ =>
    rw [leavesWith, Replica.LeavesWith, Bool.and_eq_true, Bool.not_eq_true',
      Mounts.hasOther_eq_false_iff, Option.isSome_iff_exists]

theorem leavesWith_eq_false_iff {r : Replica} :
    c.leavesWith host r = false ↔ ¬ r.LeavesWith c.mounts host := by
  rw [← leavesWith_iff, Bool.not_eq_true]

theorem leavesWith_congr (h : c'.mounts = c.mounts) : c'.leavesWith host = c.leavesWith host := by
  funext r
  cases r <;> simp [leavesWith, h]

/-- Only the mount table matters for what a datum loses, and what is saved of it. -/
theorem rescue?_congr (h : c'.mounts = c.mounts) (d : Datum) :
    c'.rescue? host d = c.rescue? host d := by
  unfold rescue?
  rw [leavesWith_congr h]

theorem without_congr (h : c'.mounts = c.mounts) (d : Datum) :
    c'.without host d = c.without host d := by
  unfold without
  rw [rescue?_congr h, leavesWith_congr h]

theorem mem_replicas_without {d : Datum} {r : Replica} :
    r ∈ (c.without host d).replicas ↔ r ∈ d.replicas ∧ ¬ r.LeavesWith c.mounts host := by
  show r ∈ d.replicas.filter _ ↔ _
  rw [SortedSet.mem_filter, Bool.not_eq_true', leavesWith_eq_false_iff]

/-! ## What has to be saved -/

theorem mem_of_rescueSource? {l : List Replica} {s : Replica} (h : rescueSource? l = some s) :
    s ∈ l := by
  unfold rescueSource? at h
  rcases Option.or_eq_some_iff.mp h with hf | ⟨-, h⟩
  · exact List.mem_of_find?_eq_some hf
  · rcases Option.or_eq_some_iff.mp h with ho | ⟨-, hh⟩
    · exact List.mem_of_find?_eq_some ho
    · exact List.mem_of_head? hh

theorem isSome_rescueSource? {l : List Replica} (h : l ≠ []) : (rescueSource? l).isSome = true := by
  obtain ⟨r, l', rfl⟩ := List.exists_cons_of_ne_nil h
  unfold rescueSource?
  rw [Option.isSome_or, Option.isSome_or, List.head?_cons, Option.isSome_some, Bool.or_true,
    Bool.or_true]

/-- A datum would be lost with a host: it has replicas, and all of them leave. -/
def LostWith (c : Catalog) (host : String) (d : Datum) : Prop :=
  (∃ r, r ∈ d.replicas) ∧ ∀ r ∈ d.replicas, r.LeavesWith c.mounts host

/-- A datum whose marks are in order is saved exactly if it would be lost. -/
theorem isSome_rescue?_iff {d : Datum} (hd : d.Sound) :
    (∃ s, c.rescue? host d = some s) ↔ c.LostWith host d := by
  unfold rescue?
  constructor
  · rintro ⟨s, hs⟩
    split at hs
    · cases hs
    · next hnot =>
      simp only [Bool.or_eq_true, Bool.not_eq_true', not_or, Bool.not_eq_false] at hnot
      have hmem := SortedSet.mem_filter.mp (mem_of_rescueSource? hs)
      refine ⟨⟨s, hmem.1⟩, fun r hr => leavesWith_iff.mp ?_⟩
      cases hl : c.leavesWith host r with
      | true => rfl
      | false =>
        exact absurd (SortedSet.mem_filter.mpr ⟨hr, by rw [hl]; rfl⟩)
          (SortedSet.isEmpty_iff.mp hnot.2 r)
  · rintro ⟨⟨r, hr⟩, hall⟩
    have hleaves : ∀ r ∈ d.replicas, c.leavesWith host r = true := fun r hr =>
      leavesWith_iff.mpr (hall r hr)
    have hpersistent : d.persistentId.isSome = false := by
      rw [Bool.eq_false_iff]
      intro hp
      obtain ⟨id, hid⟩ := hd.persistent hp
      exact Bool.false_ne_true (hleaves _ hid)
    have hissued : d.rescueIssued = false := by
      rw [Bool.eq_false_iff]
      exact fun hi => hd.issued hi r hr
    have hstaying : (d.replicas.filter fun r => !c.leavesWith host r).isEmpty = true :=
      SortedSet.isEmpty_iff.mpr fun r hr => by
        obtain ⟨hr', hst⟩ := SortedSet.mem_filter.mp hr
        rw [hleaves r hr'] at hst
        cases hst
    rw [if_neg (by simp [hpersistent, hissued, hstaying])]
    refine Option.isSome_iff_exists.mp (isSome_rescueSource? ?_)
    intro hnil
    have hmem : r ∈ d.replicas.filter (c.leavesWith host) :=
      SortedSet.mem_filter.mpr ⟨hr, hleaves r hr⟩
    rw [SortedSet.mem_def, hnil] at hmem
    cases hmem

theorem mem_of_rescue? {d : Datum} {s : Replica} (h : c.rescue? host d = some s) :
    s ∈ d.replicas := by
  unfold rescue? at h
  split at h
  · cases h
  · exact (SortedSet.mem_filter.mp (mem_of_rescueSource? h)).1

/-! ## Taking the leaving replicas from several data -/

/-- Takes the leaving replicas from the data of a list, in order. -/
def removeAll (host : String) (r : List RescueOrder × Catalog) (l : List String) :
    List RescueOrder × Catalog :=
  l.foldl
    (fun (orders, c) name =>
      let (source, c) := c.removeHost name host
      (orders ++ source.toList.map fun r => ⟨name, host, r⟩, c)) r

/-- The order for a datum, if one is due. -/
def orderFor (c : Catalog) (host k : String) : List RescueOrder :=
  ((c.data.get? k).bind (c.rescue? host)).toList.map fun s => ⟨k, host, s⟩

theorem departHost_eq (c : Catalog) (host : String) :
    c.departHost host =
      ((removeAll host ([], c) (c.dataOn host).toList).1,
        ((removeAll host ([], c) (c.dataOn host).toList).2.unmountHost host).forgetHost host) := rfl

/-- What losing the leaving replicas of one datum preserves, and forgetting a host, the departure
of a host preserves. -/
theorem departHost_preserves {P : Catalog → Prop} {host : String}
    (hremove : ∀ {b : Catalog} name, P b → P (b.removeHost name host).2)
    (hforget : ∀ {b : Catalog}, P b → P ((b.unmountHost host).forgetHost host)) (hc : P c) :
    P (c.departHost host).2 := by
  have hall : P (removeAll host ([], c) (c.dataOn host).toList).2 :=
    List.foldlRecOn (motive := fun r : List RescueOrder × Catalog => P r.2)
      (c.dataOn host).toList _ hc fun _ hr name _ => hremove name hr
  rw [departHost_eq]
  exact hforget hall

/-- Every datum of the list loses its leaving replicas and is handed out if it has to be saved. -/
theorem removeAll_spec (host : String) (hc : c.Sound) {l : List String} (hnodup : l.Nodup)
    (hl : ∀ k ∈ l, ∃ d, c.data.get? k = some d) (orders : List RescueOrder) :
    (removeAll host (orders, c) l).2.Sound ∧ (removeAll host (orders, c) l).2.names = c.names ∧
      (removeAll host (orders, c) l).2.mounts = c.mounts ∧
      (∀ k, (removeAll host (orders, c) l).2.data.get? k =
        if k ∈ l then (c.data.get? k).map (c.without host) else c.data.get? k) ∧
      (removeAll host (orders, c) l).1 = orders ++ l.flatMap (c.orderFor host) := by
  induction l generalizing c orders with
  | nil => exact ⟨hc, rfl, rfl, fun k => rfl, (List.append_nil orders).symm⟩
  | cons n l ih =>
    obtain ⟨hnot, hnodup'⟩ := List.nodup_cons.mp hnodup
    obtain ⟨d, hd⟩ := hl n List.mem_cons_self
    have hrem := removeHost_eq (hc.canonical hd) hd host
    have hsound := sound_removeHost hc n host
    -- the catalog after the first datum
    obtain ⟨b, hb⟩ : ∃ b, b = (c.removeHost n host).2 := ⟨_, rfl⟩
    have hstep : removeAll host (orders, c) (n :: l) =
        removeAll host (orders ++ (c.rescue? host d).toList.map (fun s => ⟨n, host, s⟩), b) l := by
      unfold removeAll
      rw [List.foldl_cons]
      dsimp only
      rw [hb, hrem]
    have hmounts : b.mounts = c.mounts := by rw [hb, hrem]; rfl
    have hnames : b.names = c.names := by rw [hb, hrem]; rfl
    have hget (k : String) : b.data.get? k =
        if k = n then some (c.without host d) else c.data.get? k := by
      rw [hb, hrem]
      show (update _ n _).data.get? k = _
      rw [get?_update]
      show (if k = n then Option.map _ (c.data.get? n) else c.data.get? k) = _
      rw [hd, Option.map_some]
    have hrest {k : String} (hk : k ∈ l) : b.data.get? k = c.data.get? k := by
      rw [hget, if_neg fun he : k = n => hnot (he ▸ hk)]
    rw [← hb] at hsound
    obtain ⟨hs, hn, hm, hg, ho⟩ := ih hsound hnodup'
      (fun k hk => by rw [hrest hk]; exact hl k (List.mem_cons_of_mem n hk))
      (orders ++ (c.rescue? host d).toList.map fun s => ⟨n, host, s⟩)
    rw [hstep]
    refine ⟨hs, hn.trans hnames, hm.trans hmounts, ?_, ?_⟩
    · intro k
      rw [hg]
      by_cases hk : k ∈ l
      · rw [if_pos hk, if_pos (List.mem_cons_of_mem n hk), hrest hk]
        exact Option.map_congr fun e _ => without_congr hmounts e
      · rw [if_neg hk, hget]
        by_cases hkn : k = n
        · rw [if_pos hkn, if_pos (hkn ▸ List.mem_cons_self), hkn, hd, Option.map_some]
        · rw [if_neg hkn, if_neg fun h => (List.mem_cons.mp h).elim hkn hk]
    · have hfor : l.flatMap (b.orderFor host) = l.flatMap (c.orderFor host) := by
        refine List.flatMap_congr ?_
        intro k hk
        unfold orderFor
        rw [hrest hk, funext (rescue?_congr hmounts)]
      rw [ho, hfor, List.flatMap_cons, List.append_assoc, orderFor, hd, Option.bind_some]

/-! ## What is ordered -/

theorem mem_dataOn {k : String} :
    k ∈ c.dataOn host ↔ k ∈ c.placedOn host ∨
      ∃ disk, (∃ point, c.mounts.pointOf? disk host = some point) ∧ k ∈ c.filedOn disk := by
  unfold dataOn
  rw [SortedSet.mem_foldl_union]
  simp only [Mounts.mem_disksOf]
  rfl

/-- The indexes place on a host every datum of which a replica leaves with it. -/
theorem mem_dataOn_of_leavesWith (hc : c.Sound) {k : String} {d : Datum} {r : Replica}
    (hd : c.data.get? k = some d) (hr : r ∈ d.replicas) (hl : r.LeavesWith c.mounts host) :
    k ∈ c.dataOn host := by
  rw [mem_dataOn]
  cases r with
  | ownFile h _ => exact .inl (hc.placed hd hr (congrArg some hl))
  | binding h _ => exact .inl (hc.placed hd hr (congrArg some hl))
  | diskFile disk path => exact .inr ⟨disk, hl.1, hc.filed hd hr⟩
  | persistent _ => exact hl.elim

theorem mem_orderFor {k : String} {o : RescueOrder} : o ∈ c.orderFor host k ↔
    ∃ d s, c.data.get? k = some d ∧ c.rescue? host d = some s ∧ o = ⟨k, host, s⟩ := by
  unfold orderFor
  rw [List.mem_map]
  simp only [Option.mem_toList, Option.bind_eq_some_iff]
  constructor
  · rintro ⟨s, ⟨d, hd, hs⟩, rfl⟩
    exact ⟨d, s, hd, hs, rfl⟩
  · rintro ⟨d, s, hd, hs, rfl⟩
    exact ⟨s, ⟨d, hd, hs⟩, rfl⟩

/-- What is ordered when a host departs. -/
def ordersOf (c : Catalog) (host : String) : List RescueOrder :=
  (c.dataOn host).toList.flatMap (c.orderFor host)

theorem mem_ordersOf {o : RescueOrder} :
    o ∈ c.ordersOf host ↔ ∃ k ∈ c.dataOn host, o ∈ c.orderFor host k := List.mem_flatMap

/-- An order is made for the data that would be lost: all of their replicas leave, and so the
indexes place them on the host. -/
theorem exists_mem_ordersOf_iff (hc : c.Sound) {k : String} :
    (∃ s, ⟨k, host, s⟩ ∈ c.ordersOf host) ↔ ∃ d, c.data.get? k = some d ∧ c.LostWith host d := by
  constructor
  · rintro ⟨s, hs⟩
    obtain ⟨k', -, ho⟩ := mem_ordersOf.mp hs
    obtain ⟨d, s', hd, hs', he⟩ := mem_orderFor.mp ho
    cases he
    exact ⟨d, hd, (isSome_rescue?_iff (hc.marks hd)).mp ⟨s, hs'⟩⟩
  · rintro ⟨d, hd, hlost⟩
    obtain ⟨s, hs⟩ := (isSome_rescue?_iff (hc.marks hd)).mpr hlost
    obtain ⟨r, hr⟩ := hlost.1
    have hk : k ∈ c.dataOn host := mem_dataOn_of_leavesWith hc hd hr (hlost.2 r hr)
    exact ⟨s, mem_ordersOf.mpr ⟨k, hk, mem_orderFor.mpr ⟨d, s, hd, hs, rfl⟩⟩⟩

/-- The orders of several data name each of them at most once. -/
theorem map_data_orderFor (c : Catalog) (host : String) (l : List String) :
    (l.flatMap (c.orderFor host)).map RescueOrder.data =
      l.filter fun k => ((c.data.get? k).bind (c.rescue? host)).isSome := by
  induction l with
  | nil => rfl
  | cons k l ih =>
    rw [List.flatMap_cons, List.map_append, ih, List.filter_cons, orderFor]
    cases (c.data.get? k).bind (c.rescue? host) <;> rfl

theorem nodup_ordersOf (c : Catalog) (host : String) :
    ((c.ordersOf host).map RescueOrder.data).Nodup := by
  unfold ordersOf
  rw [map_data_orderFor]
  exact (SortedSet.nodup_toList (c.dataOn host)).filter _

theorem source_of_mem_ordersOf {o : RescueOrder} (ho : o ∈ c.ordersOf host) :
    o.host = host ∧ ∃ d, c.data.get? o.data = some d ∧ o.source ∈ d.replicas := by
  obtain ⟨k, -, ho'⟩ := mem_ordersOf.mp ho
  obtain ⟨d, s, hd, hs, rfl⟩ := mem_orderFor.mp ho'
  exact ⟨rfl, d, hd, mem_of_rescue? hs⟩

/-! ## What is left -/

/-- Exactly the replicas that leave with a host are gone from a catalog. -/
structure Cleared (c : Catalog) (host : String) (c' : Catalog) : Prop where
  /-- Names stand for what they stood for. -/
  names : c'.names = c.names
  /-- Hosts mount what they did. -/
  mounts : c'.mounts = c.mounts
  /-- A datum keeps the other replicas. -/
  replicas : ∀ {k d}, c.data.get? k = some d → ∃ e, c'.data.get? k = some e ∧
    ∀ r, r ∈ e.replicas ↔ r ∈ d.replicas ∧ ¬ r.LeavesWith c.mounts host
  /-- There are no new data. -/
  none : ∀ {k}, c.data.get? k = none → c'.data.get? k = none

/-- A departure clears the catalog, lets the host unmount and forgets it; what is ordered are the
data that would be lost. -/
theorem departHost_spec (hc : c.Sound) (host : String) :
    (c.departHost host).1 = c.ordersOf host ∧ ∃ b, b.Sound ∧ c.Cleared host b ∧
      (c.departHost host).2 = (b.unmountHost host).forgetHost host := by
  have hlive : ∀ k ∈ (c.dataOn host).toList, ∃ d, c.data.get? k = some d := by
    intro k hk
    rcases mem_dataOn.mp hk with hp | ⟨disk, -, hf⟩
    · exact hc.placedOn hp
    · exact hc.filedOn hf
  obtain ⟨hsound, hnames, hmounts, hdata, horders⟩ :=
    removeAll_spec host hc (SortedSet.nodup_toList (c.dataOn host)) hlive []
  rw [departHost_eq]
  refine ⟨horders, _, hsound, ⟨hnames, hmounts, fun {k d} hd => ?_, fun {k} hd => ?_⟩, rfl⟩
  · -- what the indexes do not place on the host loses nothing
    by_cases hk : k ∈ (c.dataOn host).toList
    · refine ⟨c.without host d, ?_, fun r => mem_replicas_without⟩
      rw [hdata, if_pos hk, hd, Option.map_some]
    · refine ⟨d, ?_, fun r => ⟨fun hr => ⟨hr, fun hl => ?_⟩, And.left⟩⟩
      · rw [hdata, if_neg hk, hd]
      · exact hk (mem_dataOn_of_leavesWith hc hd hr hl)
  · rw [hdata, hd]
    split <;> rfl

theorem leavesWith_of_soleHost? {m : Mounts} {r : Replica} (h : r.soleHost? = some host) :
    r.LeavesWith m host := by
  cases r with
  | ownFile _ _ => exact Option.some_inj.mp h
  | binding _ _ => exact Option.some_inj.mp h
  | diskFile _ _ => cases h
  | persistent _ => cases h

/-- No replica is left that only the host could read. -/
theorem Cleared.noSoleHost (h : c.Cleared host c') {k : String} {e : Datum} {r : Replica}
    (he : c'.data.get? k = some e) (hr : r ∈ e.replicas) : r.soleHost? ≠ some host := by
  intro hsole
  cases hd : c.data.get? k with
  | none =>
    rw [h.none hd] at he
    cases he
  | some d =>
    obtain ⟨e', he', hrep⟩ := h.replicas hd
    rw [he, Option.some_inj] at he'
    exact ((hrep r).mp (he' ▸ hr)).2 (leavesWith_of_soleHost? hsole)

/-- When a host has unmounted its disks and is forgotten, the indexes place nothing on it. -/
theorem not_mem_dataOn_forgetHost (c : Catalog) (host k : String) :
    k ∉ ((c.unmountHost host).forgetHost host).dataOn host := by
  rw [mem_dataOn]
  rintro (hp | ⟨disk, ⟨point, hp⟩, -⟩)
  · have hp' : k ∈ ((SortedMap.get? (c.hosts.erase host) host).map fun e => e.data).getD .empty :=
      hp
    rw [SortedMap.get?_erase_self] at hp'
    exact SortedSet.not_mem_empty _ hp'
  · have hp' : (c.mounts.unmountHost host).pointOf? disk host = some point := hp
    rw [Mounts.pointOf?_unmountHost, if_pos rfl] at hp'
    cases hp'

/-- A host that can read nothing alone and mounts nothing holds nothing. -/
theorem not_mem_hostsOf (hs : ∀ k e r, c.data.get? k = some e → r ∈ e.replicas →
    r.soleHost? ≠ some host) (hm : ∀ disk, c.mounts.pointOf? disk host = none) (name : String) :
    host ∉ c.hostsOf name := by
  unfold hostsOf
  cases hdn : c.datum? name with
  | none => exact SortedSet.not_mem_empty _
  | some d =>
    obtain ⟨k, -, hd⟩ := Option.bind_eq_some_iff.mp hdn
    rw [Option.map_some, Option.getD_some, holders, SortedSet.mem_ofList, List.mem_flatMap]
    rintro ⟨r, hr, hp⟩
    obtain ⟨⟨h, path⟩, hmem, rfl⟩ := List.mem_map.mp hp
    cases r with
    | ownFile _ _ =>
      cases List.mem_singleton.mp hmem
      exact hs k d _ hd hr rfl
    | binding _ _ =>
      cases List.mem_singleton.mp hmem
      exact hs k d _ hd hr rfl
    | persistent _ => cases hmem
    | diskFile disk file =>
      obtain ⟨⟨h', point⟩, hmem', he⟩ := List.mem_map.mp hmem
      cases he
      have hp' := Mounts.mem_hostsOf.mp hmem'
      rw [hm] at hp'
      cases hp'

/-! ## The whole departure -/

/-- The departure of a host from the catalog `c` leaves the catalog `c'` and orders what has to be
saved, and nothing else. -/
structure DepartsExactly (c : Catalog) (host : String) (orders : List RescueOrder) (c' : Catalog) :
    Prop where
  /-- An order is made for the data that would be lost. -/
  ordered : ∀ k, (∃ s, ⟨k, host, s⟩ ∈ orders) ↔ ∃ d, c.data.get? k = some d ∧ c.LostWith host d
  /-- No two orders are for one datum. -/
  once : (orders.map RescueOrder.data).Nodup
  /-- An order names the host, and a replica that was there. -/
  source : ∀ o ∈ orders, o.host = host ∧ ∃ d, c.data.get? o.data = some d ∧ o.source ∈ d.replicas
  /-- Names stand for what they stood for. -/
  names : c'.names = c.names
  /-- Exactly the leaving replicas are gone. -/
  replicas : ∀ k,
    (∀ d, c.data.get? k = some d → ∃ e, c'.data.get? k = some e ∧
      ∀ r, r ∈ e.replicas ↔ r ∈ d.replicas ∧ ¬ r.LeavesWith c.mounts host) ∧
    (c.data.get? k = none → c'.data.get? k = none)
  /-- No replica is left that only the host could read. -/
  noSoleHost : ∀ k e r, c'.data.get? k = some e → r ∈ e.replicas → r.soleHost? ≠ some host
  /-- The host mounts nothing, and the other hosts mount what they did. -/
  mounts : ∀ disk h, c'.mounts.pointOf? disk h =
    if h = host then none else c.mounts.pointOf? disk h
  /-- The indexes place nothing on the host. -/
  dataOn : ∀ k, k ∉ c'.dataOn host
  /-- No datum is held by the host. -/
  hostsOf : ∀ name, host ∉ c'.hostsOf name

/-- The departure of a host from a catalog in order is exact, and leaves a catalog in order. -/
theorem departsExactly_departHost (hc : c.Sound) (host : String) :
    c.DepartsExactly host (c.departHost host).1 (c.departHost host).2 ∧
      (c.departHost host).2.Sound := by
  obtain ⟨horders, b, hsound, hb, hleft⟩ := departHost_spec hc host
  have hpoint (disk h : String) : (b.unmountHost host).mounts.pointOf? disk h =
      if h = host then none else c.mounts.pointOf? disk h := by
    rw [← hb.mounts]
    exact Mounts.pointOf?_unmountHost b.mounts host disk h
  have hunmounted (disk : String) : (b.unmountHost host).mounts.pointOf? disk host = none := by
    rw [hpoint, if_pos rfl]
  have hsimilar : b.Similar (b.unmountHost host) :=
    ⟨rfl, (Similar.refl b).data, fun _ => rfl, fun _ => rfl⟩
  rw [horders, hleft]
  refine ⟨?_, sound_forgetHost (hsound.similar hsimilar) fun he hr => hb.noSoleHost he hr⟩
  exact
    { ordered := fun k => exists_mem_ordersOf_iff hc
      once := nodup_ordersOf c host
      source := fun o ho => source_of_mem_ordersOf ho
      names := hb.names
      replicas := fun k => ⟨fun d hd => hb.replicas hd, hb.none⟩
      noSoleHost := fun k e r he hr => hb.noSoleHost he hr
      mounts := hpoint
      dataOn := fun k => not_mem_dataOn_forgetHost b host k
      hostsOf := not_mem_hostsOf (fun k e r he hr => hb.noSoleHost he hr) hunmounted }

end Catalog

end TaskGrid
