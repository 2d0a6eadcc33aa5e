import TaskGrid.Catalog.Copies
import TaskGrid.Catalog.Departure
import TaskGrid.Proofs.Sorted

/-!
# The indexes of the catalog cover every replica

What leaves with a host is found through two indexes, the data put on a host and the data put on a
shared disk.  A replica that no index covered would leave unseen, and the last replica of a datum
could be lost in silence.  So the catalog keeps more than its look-ups need: every replica is
covered, no index names anything but a datum, and canonical names stand for themselves.

## The invariant

`Catalog.Sound` speaks only of look-ups, and of a datum only of its replicas and of two marks: the
identifier in persistent storage, which is there only while a persistent replica is, and the mark
that a replica was handed out to be saved, which is there only while there are none.  Most
operations touch none of that (`Catalog.Similar`).

* `Catalog.Sound.replace`: one datum changes.
* `Catalog.sound_register`, `Catalog.sound_link`: names.
* `Catalog.sound_addReplica`, `Catalog.sound_removeHost`: replicas.
* `Catalog.Sound.similar`: everything else.
-/

namespace TaskGrid

/-- A datum whose marks agree with its replicas. -/
structure Datum.Sound (d : Datum) : Prop where
  /-- Who has an identifier in persistent storage has a replica there. -/
  persistent : d.persistentId.isSome = true → ∃ id, .persistent id ∈ d.replicas
  /-- Who was handed out to be saved has no replica. -/
  issued : d.rescueIssued = true → ∀ r, r ∉ d.replicas

/-- Two data with the same replicas and marks. -/
structure Datum.Similar (d e : Datum) : Prop where
  /-- The same replicas. -/
  replicas : e.replicas = d.replicas
  /-- The same identifier in persistent storage. -/
  persistentId : e.persistentId = d.persistentId
  /-- Both handed out to be saved, or neither. -/
  rescueIssued : e.rescueIssued = d.rescueIssued

theorem Datum.Similar.sound {d e : Datum} (h : d.Similar e) (hd : d.Sound) : e.Sound where
  persistent hp := by
    rw [h.replicas]
    exact hd.persistent (h.persistentId ▸ hp)
  issued hi := by
    rw [h.replicas]
    exact hd.issued (h.rescueIssued ▸ hi)

theorem Datum.similar_addName (d : Datum) (name : String) : d.Similar (d.addName name) := by
  unfold addName
  split <;> exact ⟨rfl, rfl, rfl⟩

theorem Datum.sound_named (name : String) : (Datum.named name).Sound where
  persistent h := by cases h
  issued h := by cases h

theorem Datum.sound_addReplica {d : Datum} (h : d.Sound) (r : Replica) :
    (d.addReplica r).Sound where
  persistent hp := by
    show ∃ id, .persistent id ∈ d.replicas.insert r
    cases r with
    | persistent id => exact ⟨id, SortedSet.mem_insert.mpr (.inl rfl)⟩
    | _ =>
      obtain ⟨id, hid⟩ := h.persistent hp
      exact ⟨id, SortedSet.mem_insert.mpr (.inr hid)⟩
  issued hi := by cases hi

namespace Catalog

/-- The data that the index of a host names. -/
def placedOn (c : Catalog) (host : String) : SortedSet String :=
  ((c.hosts.get? host).map fun e => e.data).getD .empty

/-- The data that the index of a shared disk names. -/
def filedOn (c : Catalog) (disk : String) : SortedSet String := (c.disks.get? disk).getD .empty

/-- A catalog in order. -/
structure Sound (c : Catalog) : Prop where
  /-- A name stands for a datum. -/
  named : ∀ {n k}, c.names.get? n = some k → ∃ d, c.data.get? k = some d
  /-- A canonical name stands for itself. -/
  canonical : ∀ {k d}, c.data.get? k = some d → c.names.get? k = some k
  /-- The marks of a datum agree with its replicas. -/
  marks : ∀ {k d}, c.data.get? k = some d → d.Sound
  /-- A replica that only one host can read is covered by the index of the host. -/
  placed : ∀ {k d r h}, c.data.get? k = some d → r ∈ d.replicas → r.soleHost? = some h →
    k ∈ c.placedOn h
  /-- A file of a shared disk is covered by the index of the disk. -/
  filed : ∀ {k d disk path}, c.data.get? k = some d → .diskFile disk path ∈ d.replicas →
    k ∈ c.filedOn disk
  /-- The index of a host names data. -/
  placedOn : ∀ {k h}, k ∈ c.placedOn h → ∃ d, c.data.get? k = some d
  /-- The index of a shared disk names data. -/
  filedOn : ∀ {k disk}, k ∈ c.filedOn disk → ∃ d, c.data.get? k = some d

variable {c c' : Catalog}

theorem sound_empty : Sound {} where
  named h := by cases h
  canonical h := by cases h
  marks h := by cases h
  placed h := by cases h
  filed h := by cases h
  placedOn h := absurd h (SortedSet.not_mem_empty _)
  filedOn h := absurd h (SortedSet.not_mem_empty _)

/-! ## Operations that touch neither names nor replicas -/

/-- Two catalogs with the same names and indexes, and with similar data. -/
structure Similar (c c' : Catalog) : Prop where
  /-- The same names. -/
  names : c'.names = c.names
  /-- Similar data, under the same canonical names. -/
  data : ∀ k, (∀ d, c.data.get? k = some d → ∃ e, c'.data.get? k = some e ∧ d.Similar e) ∧
    (c.data.get? k = none → c'.data.get? k = none)
  /-- The same indexes of hosts. -/
  placedOn : ∀ h, c'.placedOn h = c.placedOn h
  /-- The same indexes of shared disks. -/
  filedOn : ∀ disk, c'.filedOn disk = c.filedOn disk

theorem Similar.back (h : c.Similar c') {k : String} {e : Datum} (he : c'.data.get? k = some e) :
    ∃ d, c.data.get? k = some d ∧ d.Similar e := by
  cases hd : c.data.get? k with
  | none =>
    rw [(h.data k).2 hd] at he
    cases he
  | some d =>
    obtain ⟨e', he', hs⟩ := (h.data k).1 d hd
    rw [he] at he'
    exact ⟨d, rfl, Option.some_inj.mp he' ▸ hs⟩

theorem Sound.similar (hc : c.Sound) (h : c.Similar c') : c'.Sound where
  named hn := by
    obtain ⟨d, hd⟩ := hc.named (h.names ▸ hn)
    obtain ⟨e, he, -⟩ := (h.data _).1 d hd
    exact ⟨e, he⟩
  canonical he := by
    obtain ⟨d, hd, -⟩ := h.back he
    rw [h.names]
    exact hc.canonical hd
  marks he := by
    obtain ⟨d, hd, hs⟩ := h.back he
    exact hs.sound (hc.marks hd)
  placed he hr hh := by
    obtain ⟨d, hd, hs⟩ := h.back he
    rw [h.placedOn]
    exact hc.placed hd (hs.replicas ▸ hr) hh
  filed he hr := by
    obtain ⟨d, hd, hs⟩ := h.back he
    rw [h.filedOn]
    exact hc.filed hd (hs.replicas ▸ hr)
  placedOn hk := by
    obtain ⟨d, hd⟩ := hc.placedOn (h.placedOn _ ▸ hk)
    obtain ⟨e, he, -⟩ := (h.data _).1 d hd
    exact ⟨e, he⟩
  filedOn hk := by
    obtain ⟨d, hd⟩ := hc.filedOn (h.filedOn _ ▸ hk)
    obtain ⟨e, he, -⟩ := (h.data _).1 d hd
    exact ⟨e, he⟩

theorem Similar.refl (c : Catalog) : c.Similar c :=
  ⟨rfl, fun _ => ⟨fun d hd => ⟨d, hd, rfl, rfl, rfl⟩, fun hn => hn⟩, fun _ => rfl, fun _ => rfl⟩

theorem get?_update (c : Catalog) (k : String) (f : Datum → Datum) (n : String) :
    (c.update k f).data.get? n = if n = k then (c.data.get? k).map f else c.data.get? n :=
  SortedMap.get?_modify _ _ _ _

/-- A change of a datum that touches neither its replicas nor its marks. -/
theorem similar_update (c : Catalog) (k : String) {f : Datum → Datum}
    (hf : ∀ d : Datum, d.Similar (f d)) : c.Similar (c.update k f) := by
  refine ⟨rfl, fun n => ⟨fun d hd => ?_, fun hn => ?_⟩, fun _ => rfl, fun _ => rfl⟩
  · rw [get?_update]
    split
    · next hk =>
      rw [← hk, hd]
      exact ⟨f d, rfl, hf d⟩
    · exact ⟨d, hd, rfl, rfl, rfl⟩
  · rw [get?_update]
    split
    · next hk => rw [← hk, hn, Option.map_none]
    · exact hn

/-- A change of what is kept for one host, but not of its index. -/
theorem similar_hosts {host : String} {e : HostEntry} (hn : c'.names = c.names)
    (hd : c'.data = c.data) (hf : c'.disks = c.disks) (hh : c'.hosts = c.hosts.insert host e)
    (he : e.data = c.placedOn host) : c.Similar c' := by
  refine ⟨hn, fun k => ?_, fun h => ?_, fun disk => by rw [Catalog.filedOn, Catalog.filedOn, hf]⟩
  · rw [hd]
    exact ⟨fun d hd => ⟨d, hd, rfl, rfl, rfl⟩, fun hn => hn⟩
  · rw [Catalog.placedOn, hh, SortedMap.get?_insert]
    split
    · next hk => rw [hk, Option.map_some, Option.getD_some, he]
    · rfl

theorem Similar.trans {c'' : Catalog} (h : c.Similar c') (h' : c'.Similar c'') : c.Similar c'' := by
  refine ⟨h'.names.trans h.names, fun k => ⟨fun d hd => ?_, fun hn => ?_⟩,
    fun host => (h'.placedOn host).trans (h.placedOn host),
    fun disk => (h'.filedOn disk).trans (h.filedOn disk)⟩
  · obtain ⟨e, he, hs⟩ := (h.data k).1 d hd
    obtain ⟨g, hg, hs'⟩ := (h'.data k).1 e he
    exact ⟨g, hg, hs'.replicas.trans hs.replicas, hs'.persistentId.trans hs.persistentId,
      hs'.rescueIssued.trans hs.rescueIssued⟩
  · exact (h'.data k).2 ((h.data k).2 hn)

/-- In two catalogs the same data list the same names. -/
def SameLists (c c' : Catalog) : Prop :=
  ∀ k, (c'.data.get? k).map Datum.names = (c.data.get? k).map Datum.names

theorem SameLists.trans {c'' : Catalog} (h : c.SameLists c') (h' : c'.SameLists c'') :
    c.SameLists c'' := fun k => (h' k).trans (h k)

theorem sameLists_update (c : Catalog) (k : String) {f : Datum → Datum}
    (hn : ∀ d : Datum, (f d).names = d.names) : c.SameLists (c.update k f) := by
  intro n
  rw [get?_update]
  split
  · next hk => rw [← hk, Option.map_map, show Datum.names ∘ f = Datum.names from funext hn]
  · rfl

/-- Two similar catalogs in which data list the same names. -/
structure Alike (c c' : Catalog) : Prop extends Similar c c' where
  /-- Data list the same names. -/
  listed : c.SameLists c'

theorem Alike.trans {c'' : Catalog} (h : c.Alike c') (h' : c'.Alike c'') : c.Alike c'' :=
  ⟨h.toSimilar.trans h'.toSimilar, h.listed.trans h'.listed⟩

/-- A change of a datum that touches neither its replicas nor its marks nor its names. -/
theorem alike_update (c : Catalog) (k : String) {f : Datum → Datum}
    (hf : ∀ d : Datum, d.Similar (f d)) (hn : ∀ d : Datum, (f d).names = d.names) :
    c.Alike (c.update k f) := ⟨similar_update c k hf, sameLists_update c k hn⟩

/-- A change that touches no datum and no index. -/
theorem alike_of_same (hn : c'.names = c.names) (hd : c'.data = c.data)
    (hp : ∀ h, c'.placedOn h = c.placedOn h) (hf : c'.disks = c.disks) : c.Alike c' := by
  refine ⟨⟨hn, fun k => ?_, hp, fun disk => by rw [filedOn, filedOn, hf]⟩, fun k => by rw [hd]⟩
  rw [hd]
  exact (Similar.refl c).data k

theorem alike_markObsolete {name : String} (h : c.markObsolete? name = some c') :
    c.Alike c' := by
  unfold markObsolete? at h
  obtain ⟨k, -, h⟩ := Option.bind_eq_some_iff.mp h
  obtain ⟨d, -, rfl⟩ := Option.map_eq_some_iff.mp h
  refine List.foldlRecOn (motive := fun b : Catalog => c.Alike b) (c.holders d).toList _
    (alike_update c k (fun _ => ⟨rfl, rfl, rfl⟩) fun _ => rfl) fun b hb host _ => hb.trans ?_
  refine ⟨similar_hosts rfl rfl rfl rfl ?_, fun _ => rfl⟩
  show ((b.hosts.get? host).getD {}).data = ((b.hosts.get? host).map fun e => e.data).getD .empty
  cases b.hosts.get? host <;> rfl

theorem alike_takeObsolete (c : Catalog) (host : String) : c.Alike (c.takeObsolete host).2 := by
  refine alike_of_same rfl rfl (fun h => ?_) rfl
  show ((SortedMap.get? (c.hosts.modify host _) h).map fun e => e.data).getD .empty = c.placedOn h
  rw [SortedMap.get?_modify, Catalog.placedOn]
  split
  · next hk =>
    rw [hk]
    cases c.hosts.get? host <;> rfl
  · rfl

theorem alike_startCopy {name : String} {target : Replica} {listener : Option String}
    {r : CopyHandle × Catalog} (h : c.startCopy? name target listener = some r) :
    c.Alike r.2 := by
  unfold startCopy? at h
  obtain ⟨k, -, h⟩ := Option.bind_eq_some_iff.mp h
  obtain ⟨d, -, h⟩ := Option.map_eq_some_iff.mp h
  split at h <;> subst h
  · exact alike_update c k (fun _ => ⟨rfl, rfl, rfl⟩) fun _ => rfl
  · have hnext : c.Alike { c with lastCopy := c.lastCopy + 1 } :=
      alike_of_same rfl rfl (fun _ => rfl) rfl
    exact hnext.trans (alike_update _ k (fun _ => ⟨rfl, rfl, rfl⟩) fun _ => rfl)

theorem alike_listenToCopy {data listener : String} {id : Nat}
    (h : c.listenToCopy? data id listener = some c') : c.Alike c' := by
  unfold listenToCopy? at h
  obtain ⟨k, -, h⟩ := Option.bind_eq_some_iff.mp h
  obtain ⟨d, -, h⟩ := Option.bind_eq_some_iff.mp h
  split at h
  · cases h
    exact alike_update c k (fun _ => ⟨rfl, rfl, rfl⟩) fun _ => rfl
  · cases h

theorem alike_retireCopy {data : String} {id : Nat} {e : CopyEnded}
    (h : c.retireCopy? data id = some e) : c.Alike e.catalog := by
  unfold retireCopy? at h
  obtain ⟨k, -, h⟩ := Option.bind_eq_some_iff.mp h
  obtain ⟨d, -, h⟩ := Option.bind_eq_some_iff.mp h
  obtain ⟨copy, -, rfl⟩ := Option.map_eq_some_iff.mp h
  exact alike_update c k (fun _ => ⟨rfl, rfl, rfl⟩) fun _ => rfl

/-! ## Names -/

/-- The catalog stays in order when the datum `k` becomes `e`, if `e` is covered and nothing changes
for the other data. -/
theorem Sound.replace (hc : c.Sound) {k : String} {e : Datum}
    (data : ∀ j, c'.data.get? j = if j = k then some e else c.data.get? j)
    (self : c'.names.get? k = some k)
    (names : ∀ {n j}, c'.names.get? n = some j → j = k ∨ c.names.get? n = some j)
    (kept : ∀ {j}, c.names.get? j = some j → c'.names.get? j = some j) (marks : e.Sound)
    (placed : ∀ {r h}, r ∈ e.replicas → r.soleHost? = some h → k ∈ c'.placedOn h)
    (filed : ∀ {disk path}, .diskFile disk path ∈ e.replicas → k ∈ c'.filedOn disk)
    (placedOn : ∀ {j h}, j ≠ k → (j ∈ c'.placedOn h ↔ j ∈ c.placedOn h))
    (filedOn : ∀ {j disk}, j ≠ k → (j ∈ c'.filedOn disk ↔ j ∈ c.filedOn disk)) : c'.Sound := by
  have hself : c'.data.get? k = some e := by rw [data, if_pos rfl]
  have hold {j : String} (h : ∃ d, c.data.get? j = some d) : ∃ d, c'.data.get? j = some d := by
    rw [data]
    split
    · exact ⟨e, rfl⟩
    · exact h
  have hback {j : String} {d : Datum} (h : c'.data.get? j = some d) :
      j = k ∧ d = e ∨ j ≠ k ∧ c.data.get? j = some d := by
    rw [data] at h
    split at h
    · next hj => exact .inl ⟨hj, (Option.some_inj.mp h).symm⟩
    · next hj => exact .inr ⟨hj, h⟩
  refine ⟨fun hn => ?_, fun hd => ?_, fun hd => ?_, fun hd hr hh => ?_, fun hd hr => ?_,
    fun {j h} hj => ?_, fun {j disk} hj => ?_⟩
  · rcases names hn with rfl | hn
    · exact ⟨e, hself⟩
    · exact hold (hc.named hn)
  · rcases hback hd with ⟨rfl, -⟩ | ⟨-, hd⟩
    · exact self
    · exact kept (hc.canonical hd)
  · rcases hback hd with ⟨-, rfl⟩ | ⟨-, hd⟩
    · exact marks
    · exact hc.marks hd
  · rcases hback hd with ⟨rfl, rfl⟩ | ⟨hj, hd⟩
    · exact placed hr hh
    · exact (placedOn hj).mpr (hc.placed hd hr hh)
  · rcases hback hd with ⟨rfl, rfl⟩ | ⟨hj, hd⟩
    · exact filed hr
    · exact (filedOn hj).mpr (hc.filed hd hr)
  · by_cases hk : j = k
    · exact ⟨e, hk ▸ hself⟩
    · exact hold (hc.placedOn ((placedOn hk).mp hj))
  · by_cases hk : j = k
    · exact ⟨e, hk ▸ hself⟩
    · exact hold (hc.filedOn ((filedOn hk).mp hj))

theorem sound_register (hc : c.Sound) (name : String) : (c.register name).Sound := by
  unfold register
  split
  · exact hc
  · next hreg =>
    have hnone : c.names.get? name = none := by
      rw [← SortedMap.contains_eq_false_iff, ← Bool.not_eq_true]
      exact hreg
    refine hc.replace (k := name) (e := .named name) (fun j => SortedMap.get?_insert _ _ _ _)
      (SortedMap.get?_insert_self _ _ _) (fun {n j} hn => ?_) (fun {j} hj => ?_)
      (Datum.sound_named name) (fun hr => absurd hr (SortedSet.not_mem_empty _))
      (fun hr => absurd hr (SortedSet.not_mem_empty _)) (fun _ => .rfl) (fun _ => .rfl)
    · have hn' : (c.names.insert name name).get? n = some j := hn
      rw [SortedMap.get?_insert] at hn'
      split at hn'
      · exact .inl (Option.some_inj.mp hn').symm
      · exact .inr hn'
    · have hne : j ≠ name := by
        rintro rfl
        rw [hnone] at hj
        cases hj
      show (c.names.insert name name).get? j = some j
      rw [SortedMap.get?_insert_of_ne _ _ hne, hj]

/-- A further name keeps the catalog in order unless it already stands for another datum. -/
theorem sound_link (hc : c.Sound) {name existing : String} {l : Linked}
    (h : c.link? name existing = some l)
    (proper : ∀ k, c.canonical? name = some k → k = l.canonical) : l.catalog.Sound := by
  unfold link? at h
  obtain ⟨k, hk, rfl⟩ := Option.map_eq_some_iff.mp h
  have hup := hc.similar (similar_update c k fun d => d.similar_addName name)
  refine ⟨fun {n j} hn => ?_, fun {j d} hd => ?_, hup.marks, hup.placed, hup.filed, hup.placedOn,
    hup.filedOn⟩
  · have hn' : (c.names.insert name k).get? n = some j := hn
    rw [SortedMap.get?_insert] at hn'
    split at hn'
    · rw [← Option.some_inj.mp hn']
      exact hup.named hk
    · exact hup.named hn'
  · show (c.names.insert name k).get? j = some j
    have hj : c.names.get? j = some j := hup.canonical hd
    rw [SortedMap.get?_insert]
    split
    · next he => rw [proper j (he ▸ hj)]
    · exact hj

/-! ## New replicas -/

theorem mem_placedOn_index {k canonical h : String} {r : Replica} :
    k ∈ (c.index canonical r).placedOn h ↔
      k = canonical ∧ r.soleHost? = some h ∨ k ∈ c.placedOn h := by
  have hhost (host : String) : k ∈ (index.onHost c canonical host).placedOn h ↔
      k = canonical ∧ host = h ∨ k ∈ c.placedOn h := by
    unfold index.onHost Catalog.placedOn
    rw [SortedMap.get?_insert]
    by_cases hh : h = host
    · subst hh
      rw [if_pos rfl, Option.map_some, Option.getD_some, SortedSet.mem_insert]
      cases c.hosts.get? h <;> simp
    · simp [hh, Ne.symm hh]
  cases r with
  | ownFile host _ => simpa [index] using hhost host
  | binding host _ => simpa [index] using hhost host
  | diskFile disk _ => simp [index, Catalog.placedOn]
  | persistent _ => simp [index]

theorem mem_filedOn_index {k canonical disk : String} {r : Replica} :
    k ∈ (c.index canonical r).filedOn disk ↔
      (k = canonical ∧ ∃ path, r = .diskFile disk path) ∨ k ∈ c.filedOn disk := by
  cases r with
  | ownFile host _ => simp [index, index.onHost, Catalog.filedOn]
  | binding host _ => simp [index, index.onHost, Catalog.filedOn]
  | persistent _ => simp [index]
  | diskFile disk' path =>
    unfold index Catalog.filedOn
    rw [SortedMap.get?_insert]
    by_cases hd : disk = disk'
    · subst hd
      simp
    · simp [hd, Ne.symm hd]

@[simp] theorem names_index (canonical : String) (r : Replica) :
    (c.index canonical r).names = c.names := by
  cases r <;> rfl

@[simp] theorem data_index (canonical : String) (r : Replica) :
    (c.index canonical r).data = c.data := by
  cases r <;> rfl

/-- A replica is added to a datum, or nothing happens. -/
theorem insertReplica_cases (c : Catalog) (k : String) (r : Replica) :
    (c.insertReplica k r).catalog = c ∨ ∃ d, c.data.get? k = some d ∧ r ∉ d.replicas ∧
      (c.insertReplica k r).catalog = (c.index k r).update k (·.addReplica r) := by
  unfold insertReplica
  split
  · exact .inl rfl
  · next d hd =>
    split
    · exact .inl rfl
    · next hr => exact .inr ⟨d, hd, hr, rfl⟩

/-- A new replica is covered before it is added. -/
theorem sound_insertReplica (hc : c.Sound) (canonical : String) (r : Replica) :
    (c.insertReplica canonical r).catalog.Sound := by
  unfold insertReplica
  cases hd : c.data.get? canonical with
  | none => exact hc
  | some d =>
    dsimp only
    split
    · exact hc
    · have hget (k : String) :
          ((c.index canonical r).update canonical (·.addReplica r)).data.get? k =
            if k = canonical then some (d.addReplica r) else c.data.get? k := by
        rw [get?_update, data_index, hd, Option.map_some]
      have hnames : (c.index canonical r).names = c.names := names_index canonical r
      refine hc.replace hget ?_ (fun {n j} hn => ?_) (fun {j} hj => ?_)
        (Datum.sound_addReplica (hc.marks hd) r) (fun {x h} hx hh => ?_) (fun {disk path} hx => ?_)
        (fun {j h} hj => ?_) (fun {j disk} hj => ?_)
      · show (c.index canonical r).names.get? canonical = some canonical
        rw [hnames, hc.canonical hd]
      · exact .inr (hnames ▸ hn)
      · show (c.index canonical r).names.get? j = some j
        rw [hnames, hj]
      · refine mem_placedOn_index.mpr ?_
        rcases SortedSet.mem_insert.mp hx with rfl | hx
        · exact .inl ⟨rfl, hh⟩
        · exact .inr (hc.placed hd hx hh)
      · refine mem_filedOn_index.mpr ?_
        rcases SortedSet.mem_insert.mp hx with rfl | hx
        · exact .inl ⟨rfl, path, rfl⟩
        · exact .inr (hc.filed hd hx)
      · exact mem_placedOn_index.trans (or_iff_right fun hc => hj hc.1)
      · exact mem_filedOn_index.trans (or_iff_right fun hc => hj hc.1)

theorem sound_addReplica (hc : c.Sound) (name : String) (r : Replica) :
    (c.addReplica name r).catalog.Sound :=
  sound_insertReplica (sound_register hc name) _ r

theorem sound_finishCopy (hc : c.Sound) {data : String} {id : Nat} {e : CopyEnded}
    (h : c.finishCopy? data id = some e) : e.catalog.Sound := by
  unfold finishCopy? at h
  obtain ⟨e', he', rfl⟩ := Option.map_eq_some_iff.mp h
  exact sound_insertReplica (hc.similar (alike_retireCopy he').toSimilar) _ _

/-! ## Leaving replicas -/

/-- The replica to save when a host leaves a datum, if one has to be. -/
def rescue? (c : Catalog) (host : String) (d : Datum) : Option Replica :=
  if d.persistentId.isSome || d.rescueIssued ||
      !(d.replicas.filter fun r => !c.leavesWith host r).isEmpty then none
  else rescueSource? (d.replicas.filter (c.leavesWith host)).toList

/-- A datum without the replicas that leave with a host. -/
def without (c : Catalog) (host : String) (d : Datum) : Datum :=
  { d with
    replicas := d.replicas.filter fun r => !c.leavesWith host r
    rescueIssued := d.rescueIssued || (c.rescue? host d).isSome }

theorem removeHost_eq {name k : String} {d : Datum} (hn : c.canonical? name = some k)
    (hd : c.data.get? k = some d) (host : String) :
    c.removeHost name host = (c.rescue? host d,
      ({ c with hosts := c.hosts.modify host fun e => { e with data := e.data.erase k } }).update k
        fun _ => c.without host d) := by
  unfold removeHost
  rw [hn]
  dsimp only
  rw [hd]
  dsimp only
  refine congrArg (Prod.mk _) ?_
  unfold update
  dsimp only
  rw [SortedMap.modify_congr (g := fun _ => c.without host d) hd ?_]
  rfl

theorem removeHost_of_none {name : String} (h : c.datum? name = none) (host : String) :
    c.removeHost name host = (none, c) := by
  unfold removeHost
  cases hn : c.canonical? name with
  | none => rfl
  | some k =>
    have hd : c.data.get? k = none := by
      rw [datum?, hn] at h
      exact h
    dsimp only
    rw [hd]

/-- A host is removed from the datum behind a name, or nothing happens. -/
theorem removeHost_cases (c : Catalog) (name host : String) :
    c.datum? name = none ∧ c.removeHost name host = (none, c) ∨
      ∃ k d, c.canonical? name = some k ∧ c.data.get? k = some d ∧
        c.removeHost name host = (c.rescue? host d,
          ({ c with
              hosts := c.hosts.modify host fun e => { e with data := e.data.erase k } }).update
            k fun _ => c.without host d) := by
  cases hdn : c.datum? name with
  | none => exact .inl ⟨rfl, removeHost_of_none hdn host⟩
  | some d =>
    obtain ⟨k, hn, hd⟩ := Option.bind_eq_some_iff.mp hdn
    exact .inr ⟨k, d, hn, hd, removeHost_eq hn hd host⟩

/-- The data after a host is removed from one of them. -/
theorem get?_removeHost {name k : String} {d : Datum} (hn : c.canonical? name = some k)
    (hd : c.data.get? k = some d) (host j : String) :
    (c.removeHost name host).2.data.get? j =
      if j = k then some (c.without host d) else c.data.get? j := by
  rw [removeHost_eq hn hd, get?_update]
  show (if j = k then (c.data.get? k).map _ else c.data.get? j) = _
  rw [hd, Option.map_some]

theorem sound_without {d : Datum} (hd : d.Sound) (host : String) : (c.without host d).Sound where
  persistent hp := by
    obtain ⟨id, hid⟩ := hd.persistent hp
    exact ⟨id, SortedSet.mem_filter.mpr ⟨hid, rfl⟩⟩
  issued hi r hr := by
    have hr' : r ∈ d.replicas.filter fun r => !c.leavesWith host r := hr
    have hi' : (d.rescueIssued || (c.rescue? host d).isSome) = true := hi
    rcases Bool.or_eq_true_iff.mp hi' with hi | hs
    · exact hd.issued hi r (SortedSet.mem_filter.mp hr').1
    · unfold rescue? at hs
      split at hs
      · cases hs
      · next hnot =>
        simp only [Bool.or_eq_true, Bool.not_eq_true', not_or, Bool.not_eq_false] at hnot
        exact SortedSet.isEmpty_iff.mp hnot.2 r hr'

/-- Whoever stays is not of the host that leaves. -/
theorem ne_of_not_leavesWith {host h : String} {r : Replica} (hl : c.leavesWith host r = false)
    (hh : r.soleHost? = some h) : h ≠ host := by
  rintro rfl
  cases r <;> simp_all [leavesWith, Replica.soleHost?]

theorem mem_placedOn_modify {host k h j : String} :
    j ∈ Catalog.placedOn
        { c with hosts := c.hosts.modify host fun e => { e with data := e.data.erase k } } h ↔
      j ∈ c.placedOn h ∧ ¬ (h = host ∧ j = k) := by
  unfold Catalog.placedOn
  rw [SortedMap.get?_modify]
  by_cases hh : h = host
  · subst hh
    cases c.hosts.get? h <;> simp
  · simp [hh]

theorem sound_removeHost (hc : c.Sound) (name host : String) :
    (c.removeHost name host).2.Sound := by
  cases hdn : c.datum? name with
  | none =>
    rw [removeHost_of_none hdn]
    exact hc
  | some d =>
    obtain ⟨k, hn, hd⟩ := Option.bind_eq_some_iff.mp hdn
    rw [removeHost_eq hn hd]
    have hget (j : String) : (update { c with
        hosts := c.hosts.modify host fun e => { e with data := e.data.erase k } } k
        fun _ => c.without host d).data.get? j =
        if j = k then some (c.without host d) else c.data.get? j := by
      rw [get?_update]
      show (if j = k then Option.map _ (c.data.get? k) else c.data.get? j) = _
      rw [hd, Option.map_some]
    refine hc.replace hget (hc.canonical hd) .inr (fun hj => hj) (sound_without (hc.marks hd) host)
      (fun hr hh => ?_) (fun hr => hc.filed hd (SortedSet.mem_filter.mp hr).1)
      (fun {j h} hj => ?_) (fun _ => .rfl)
    · obtain ⟨hr', hst⟩ := SortedSet.mem_filter.mp hr
      rw [Bool.not_eq_true'] at hst
      exact mem_placedOn_modify.mpr
        ⟨hc.placed hd hr' hh, fun hb => ne_of_not_leavesWith hst hh hb.1⟩
    · exact mem_placedOn_modify.trans (and_iff_left fun hb => hj hb.2)

/-- What is kept for a host can be forgotten when no replica is on the host. -/
theorem sound_forgetHost (hc : c.Sound) {host : String}
    (hnone : ∀ {k d r}, c.data.get? k = some d → r ∈ d.replicas → r.soleHost? ≠ some host) :
    (c.forgetHost host).Sound := by
  have hmem {k h : String} : k ∈ (c.forgetHost host).placedOn h ↔ h ≠ host ∧ k ∈ c.placedOn h := by
    unfold forgetHost Catalog.placedOn
    rw [SortedMap.get?_erase]
    by_cases hh : h = host <;> simp [hh]
  refine ⟨hc.named, hc.canonical, hc.marks, fun hd hr hh => hmem.mpr ⟨?_, hc.placed hd hr hh⟩,
    hc.filed, fun hk => hc.placedOn (hmem.mp hk).2, hc.filedOn⟩
  rintro rfl
  exact hnone hd hr hh

end Catalog

end TaskGrid
