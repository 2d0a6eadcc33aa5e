import TaskGrid.Proofs.Readers

/-!
# What the indexes of the catalog say

What a host holds is computed in two ways: from the replicas of the data and the mounts of the host,
and from the indexes, which name the data that were put on the host and the data that were put on
each shared disk.  The index of a host follows the replicas: a datum leaves it with its last replica
there.  The index of a disk does not: it names every datum that ever had a file on the disk.

So the two agree but for the past.  The indexes place a datum on a host if a replica of it can be
read there, or if the host mounts a disk on which the datum once had a file.

* `Machine.catalogs`: the catalogs of a course.
* `Machine.Course.catalog_induction`: what holds of every catalog of a course.
* `Machine.Course.exists_origin`, `Machine.Course.holds_since`: what is recorded of the past.
* `Catalog.Placed`: the index of a host names what it can read.
* `Machine.Course.mem_filedOn_iff`: the index of a disk names what ever was there.
* `Machine.Course.mem_dataOn_iff`: what the indexes place on a host.
-/

namespace TaskGrid

/-! ## The past of a catalog -/

namespace Machine

variable {rule : Conduct} {policy : Policy} {localNodes : List String} {withholds : Bool}
  {limit : Nat} {disturbances : List Disturbance} {t : List Moment} {m : Machine}

/-- The catalogs of a course: the one that there is now, and those of its moments. -/
def catalogs (m : Machine) (t : List Moment) : List Catalog :=
  m.world.catalog :: t.map fun x => x.world.catalog

theorem mem_catalogs_of_mem {x : Moment} (hx : x ∈ t) (m : Machine) :
    x.world.catalog ∈ m.catalogs t :=
  List.mem_cons_of_mem _ (List.mem_map_of_mem hx)

/-- The catalogs of a course were reached by courses whose moments are among its moments. -/
theorem Course.of_mem_catalogs {w₀ : World} (h : Course rule w₀ t m) {c : Catalog}
    (hc : c ∈ m.catalogs t) :
    ∃ t' m', Course rule w₀ t' m' ∧ t' ⊆ t ∧ m'.world.catalog = c := by
  rcases List.mem_cons.mp hc with rfl | hc
  · exact ⟨t, m, h, List.Subset.refl t, rfl⟩
  · obtain ⟨x, hx, rfl⟩ := List.mem_map.mp hc
    obtain ⟨t₁, t₀, rfl⟩ := List.append_of_mem hx
    obtain ⟨rest, hbefore⟩ := h.before
    exact ⟨t₀, _, hbefore, fun y hy => List.mem_append_right _ (List.mem_cons_of_mem x hy), rfl⟩

/-- What holds of the empty catalog and is kept by every step holds of the catalog of a course. -/
theorem Course.catalog_induction {P : Catalog → Prop}
    (h : Course rule { World.fresh policy localNodes withholds limit with disturbances } t m)
    (empty : P {})
    (kept : ∀ {c c'}, c.Listed → Catalog.Step false c c' → P c → P c') : P m.world.catalog := by
  induction h with
  | start => exact empty
  | ask _ _ _ ih => exact ih
  | answer _ _ _ ih => exact ih
  | item hbefore ih => exact kept hbefore.listed_marked.1 (World.step_carryOut nofun) ih

/-- What is recorded of a catalog, and appears in the record only when it is so, was so at some
time. -/
theorem Course.exists_origin {P Q : Catalog → Prop}
    (h : Course rule { World.fresh policy localNodes withholds limit with disturbances } t m)
    (empty : ¬ P {})
    (new : ∀ {c c'}, c.Listed → Catalog.Step false c c' → P c' → P c ∨ Q c')
    (hP : P m.world.catalog) : ∃ c ∈ m.catalogs t, Q c := by
  induction h with
  | start => exact absurd hP empty
  | ask _ _ _ ih => exact ih hP
  | answer _ _ _ ih => exact ih hP
  | @item t w i rest hbefore ih =>
    rcases new hbefore.listed_marked.1 (World.step_carryOut nofun) hP with hP | hQ
    · obtain ⟨c, hc, hQ⟩ := ih hP
      exact ⟨c, List.mem_cons_of_mem _ hc, hQ⟩
    · exact ⟨_, List.mem_cons_self, hQ⟩

/-- What no step takes away holds ever since. -/
theorem Course.holds_since {P : Catalog → Prop}
    (h : Course rule { World.fresh policy localNodes withholds limit with disturbances } t m)
    (kept : ∀ {c c'}, c.Listed → Catalog.Step false c c' → P c → P c') {c : Catalog}
    (hc : c ∈ m.catalogs t) (hP : P c) : P m.world.catalog := by
  induction h with
  | start =>
    obtain rfl := List.mem_singleton.mp hc
    exact hP
  | ask _ _ _ ih => exact ih hc
  | answer _ _ _ ih => exact ih hc
  | @item t w i rest hbefore ih =>
    rcases List.mem_cons.mp hc with rfl | hc
    · exact hP
    · exact kept hbefore.listed_marked.1 (World.step_carryOut nofun) (ih hc)

end Machine

/-! ## The indexes and the replicas -/

namespace Catalog

variable {c c' : Catalog} {k n host disk : String} {r s : Replica} {proper : Bool}

theorem placedOn_register (c : Catalog) (name host : String) :
    (c.register name).placedOn host = c.placedOn host := by
  unfold register
  split <;> rfl

theorem filedOn_register (c : Catalog) (name disk : String) :
    (c.register name).filedOn disk = c.filedOn disk := by
  unfold register
  split <;> rfl

theorem holds_similar_iff (h : c.Similar c') : c'.Holds k r ↔ c.Holds k r := by
  constructor
  · rintro ⟨e, he, hr⟩
    obtain ⟨d, hd, hs⟩ := h.back he
    exact ⟨d, hd, hs.replicas ▸ hr⟩
  · rintro ⟨d, hd, hr⟩
    obtain ⟨e, he, hs⟩ := (h.data k).1 d hd
    exact ⟨e, he, hs.replicas ▸ hr⟩

/-- What a datum has left when the replicas that leave with a host are taken from another one, or
from it. -/
theorem Holds.removeHost (h : c.Holds k r) {name : String}
    (hstays : c.canonical? name = some k → ¬ r.LeavesWith c.mounts host) :
    (c.removeHost name host).2.Holds k r := by
  obtain ⟨d, hd, hr⟩ := h
  rcases c.removeHost_cases name host with ⟨-, heq⟩ | ⟨j, e, hn, he, -⟩
  · rw [heq]
    exact ⟨d, hd, hr⟩
  · unfold Holds
    rw [get?_removeHost hn he]
    by_cases hk : k = j
    · subst hk
      rw [hd] at he
      obtain rfl := Option.some_inj.mp he
      exact ⟨_, if_pos rfl, mem_replicas_without.mpr ⟨hr, hstays hn⟩⟩
    · exact ⟨d, (if_neg hk).trans hd, hr⟩

/-- The index of a host names data of which only the host can read a replica. -/
def Placed (c : Catalog) : Prop :=
  ∀ k host, k ∈ c.placedOn host → ∃ r, c.Holds k r ∧ r.soleHost? = some host

theorem placed_empty : Placed {} := fun _ _ h => absurd h (SortedSet.not_mem_empty _)

theorem Placed.similar (hc : c.Placed) (h : c.Similar c') : c'.Placed := by
  intro k host hk
  rw [h.placedOn] at hk
  obtain ⟨r, hr, hs⟩ := hc k host hk
  exact ⟨r, (holds_similar_iff h).mpr hr, hs⟩

theorem Placed.register (hl : c.Listed) (hc : c.Placed) (name : String) :
    (c.register name).Placed := by
  intro k host hk
  rw [placedOn_register] at hk
  obtain ⟨r, hr, hs⟩ := hc k host hk
  exact ⟨r, (holds_register hl name).mpr hr, hs⟩

theorem Placed.insertReplica (hc : c.Placed) (n : String) (r : Replica) :
    (c.insertReplica n r).catalog.Placed := by
  rcases c.insertReplica_cases n r with hsame | ⟨d, hd, -, hnew⟩
  · rwa [hsame]
  · intro k host hk
    have hindex : (c.insertReplica n r).catalog.placedOn host = (c.index n r).placedOn host := by
      rw [hnew]
      rfl
    rw [hindex, mem_placedOn_index] at hk
    rcases hk with ⟨rfl, hsole⟩ | hk
    · exact ⟨r, (holds_insertReplica hd r).mpr (.inr ⟨rfl, rfl⟩), hsole⟩
    · obtain ⟨s, hs, hsole⟩ := hc k host hk
      exact ⟨s, (holds_insertReplica hd r).mpr (.inl hs), hsole⟩

/-- A datum that stays in the index of a host keeps its replicas there. -/
theorem Placed.removeHost (hc : c.Placed) (name gone : String) :
    (c.removeHost name gone).2.Placed := by
  intro k host hk
  have hkept : k ∈ c.placedOn host ∧ ¬ (host = gone ∧ c.canonical? name = some k) := by
    rcases c.removeHost_cases name gone with ⟨hnone, heq⟩ | ⟨j, d, hn, hd, heq⟩
    · rw [heq] at hk
      refine ⟨hk, fun hb => ?_⟩
      obtain ⟨r, ⟨d, hd, -⟩, -⟩ := hc k host hk
      rw [datum?, hb.2, Option.bind_some, hd] at hnone
      cases hnone
    · rw [heq] at hk
      obtain ⟨hk, hnot⟩ := mem_placedOn_modify.mp hk
      refine ⟨hk, fun hb => hnot ⟨hb.1, ?_⟩⟩
      rw [hn] at hb
      exact (Option.some_inj.mp hb.2).symm
  obtain ⟨hk, hnot⟩ := hkept
  obtain ⟨r, hr, hsole⟩ := hc k host hk
  refine ⟨r, hr.removeHost fun hn hl => hnot ⟨?_, hn⟩, hsole⟩
  exact hl.readableOn_iff.mp (Replica.readableOn_of_soleHost? hsole)

theorem Placed.forgetHost (hc : c.Placed) (host : String) : (c.forgetHost host).Placed := by
  intro k h hk
  refine hc k h ?_
  unfold Catalog.forgetHost Catalog.placedOn at hk
  rw [SortedMap.get?_erase] at hk
  split at hk
  · exact absurd hk (SortedSet.not_mem_empty _)
  · exact hk

theorem Placed.departHost (hc : c.Placed) (host : String) : (c.departHost host).2.Placed :=
  departHost_preserves (fun name hb => hb.removeHost name host)
    (fun hb => Placed.forgetHost (c := Catalog.unmountHost _ host) hb host) hc

theorem Change.placed (h : Change proper c c') (hl : c.Listed) (hc : c.Placed) : c'.Placed := by
  cases h with
  | register name => exact hc.register hl name
  | @link name existing l linked _ =>
    obtain ⟨k, -, rfl⟩ := Option.map_eq_some_iff.mp linked
    have hnamed : (c.update k (·.addName name)).Placed :=
      hc.similar (similar_update c k fun d => d.similar_addName name)
    exact hnamed
  | addReplica name r => exact (hc.register hl name).insertReplica _ r
  | finishCopy h =>
    obtain ⟨e, he, rfl⟩ := Option.map_eq_some_iff.mp h
    exact (hc.similar (alike_retireCopy he).toSimilar).insertReplica _ _
  | removeHost name host => exact hc.removeHost name host
  | departHost host => exact hc.departHost host
  | forgetHost host _ => exact hc.forgetHost host
  | alike h => exact hc.similar h.toSimilar

theorem Step.placed (h : Step proper c c') (hl : c.Listed) (hc : c.Placed) : c'.Placed := by
  cases h with
  | departures h => exact h.preserves (fun _ host hb => Placed.departHost hb host) hc
  | change h => exact h.placed hl hc
  | registerUpdate name h => exact (hc.register hl name).similar h.toSimilar

/-- Between two catalogs the indexes of disks keep their data, and they name new ones only if these
have a file there. -/
structure Files (c c' : Catalog) : Prop where
  /-- No datum is taken from the index of a disk. -/
  kept : ∀ {k disk}, k ∈ c.filedOn disk → k ∈ c'.filedOn disk
  /-- A datum that appears in the index has a file on the disk. -/
  new : ∀ {k disk}, k ∈ c'.filedOn disk →
    k ∈ c.filedOn disk ∨ ∃ path, c'.Holds k (.diskFile disk path)

theorem Files.of_same (h : ∀ disk, c'.filedOn disk = c.filedOn disk) : Files c c' :=
  ⟨fun {k disk} hk => by rwa [h disk], fun {k disk} hk => .inl (by rwa [h disk] at hk)⟩

theorem files_insertReplica (c : Catalog) (n : String) (r : Replica) :
    Files c (c.insertReplica n r).catalog := by
  rcases c.insertReplica_cases n r with hsame | ⟨d, hd, -, hnew⟩
  · exact .of_same fun disk => by rw [hsame]
  · have hindex (disk : String) :
        (c.insertReplica n r).catalog.filedOn disk = (c.index n r).filedOn disk := by
      rw [hnew]
      rfl
    refine ⟨fun hk => ?_, fun hk => ?_⟩
    · rw [hindex, mem_filedOn_index]
      exact .inr hk
    · rw [hindex, mem_filedOn_index] at hk
      rcases hk with ⟨rfl, path, rfl⟩ | hk
      · exact .inr ⟨path, (holds_insertReplica hd _).mpr (.inr ⟨rfl, rfl⟩)⟩
      · exact .inl hk

theorem filedOn_removeHost (c : Catalog) (name host disk : String) :
    (c.removeHost name host).2.filedOn disk = c.filedOn disk := by
  rcases c.removeHost_cases name host with ⟨-, heq⟩ | ⟨k, d, -, -, heq⟩ <;> rw [heq]
  rfl

theorem filedOn_departHost (c : Catalog) (host disk : String) :
    (c.departHost host).2.filedOn disk = c.filedOn disk :=
  departHost_preserves (P := fun b => b.filedOn disk = c.filedOn disk)
    (fun name hb => (filedOn_removeHost _ name host disk).trans hb) (fun hb => hb) rfl

theorem Change.files (h : Change proper c c') : Files c c' := by
  cases h with
  | register name => exact .of_same (filedOn_register c name)
  | link linked _ =>
    obtain ⟨k, -, rfl⟩ := Option.map_eq_some_iff.mp linked
    exact .of_same fun _ => rfl
  | addReplica name r =>
    have hf := files_insertReplica (c.register name) (c.canonicalOf name) r
    exact ⟨fun hk => hf.kept (by rwa [filedOn_register]),
      fun hk => (hf.new hk).imp_left fun hk => by rwa [filedOn_register] at hk⟩
  | finishCopy h =>
    obtain ⟨e, he, rfl⟩ := Option.map_eq_some_iff.mp h
    have hs := (alike_retireCopy he).filedOn
    have hf := files_insertReplica e.catalog e.canonical e.copy.target
    exact ⟨fun hk => hf.kept (by rwa [hs]),
      fun hk => (hf.new hk).imp_left fun hk => by rwa [hs] at hk⟩
  | removeHost name host => exact .of_same (filedOn_removeHost c name host)
  | departHost host => exact .of_same (filedOn_departHost c host)
  | forgetHost host _ => exact .of_same fun _ => rfl
  | alike h => exact .of_same h.filedOn

theorem Step.files (h : Step proper c c') : Files c c' := by
  cases h with
  | departures h =>
    exact .of_same (h.preserves (P := fun b => ∀ disk, b.filedOn disk = c.filedOn disk)
      (fun b host hb disk => (filedOn_departHost b host disk).trans (hb disk)) fun _ => rfl)
  | change h => exact h.files
  | registerUpdate name h =>
    exact .of_same fun disk => (h.filedOn disk).trans (filedOn_register c name disk)

end Catalog

namespace Machine

variable {rule : Conduct} {policy : Policy} {localNodes : List String} {withholds : Bool}
  {limit : Nat} {disturbances : List Disturbance} {t : List Moment} {m : Machine}

theorem Course.placed
    (h : Course rule { World.fresh policy localNodes withholds limit with disturbances } t m) :
    m.world.catalog.Placed :=
  h.catalog_induction Catalog.placed_empty fun hl hs => hs.placed hl

/-- What the index of a disk names had a file there at some time. -/
theorem Course.exists_holds_of_filedOn
    (h : Course rule { World.fresh policy localNodes withholds limit with disturbances } t m)
    {k disk : String} (hk : k ∈ m.world.catalog.filedOn disk) :
    ∃ c ∈ m.catalogs t, ∃ path, c.Holds k (.diskFile disk path) :=
  h.exists_origin (P := fun c => k ∈ c.filedOn disk) (SortedSet.not_mem_empty k)
    (fun _ hs => hs.files.new) hk

/-- Along a course of proper moments, what had a file on a disk at some time is in the index of the
disk ever since. -/
theorem Course.mem_filedOn_iff
    (h : Course rule { World.fresh policy localNodes withholds limit with disturbances } t m)
    (hproper : ∀ x ∈ t, x.isProper = true) {k disk : String} :
    k ∈ m.world.catalog.filedOn disk ↔
      ∃ c ∈ m.catalogs t, ∃ path, c.Holds k (.diskFile disk path) := by
  refine ⟨h.exists_holds_of_filedOn, ?_⟩
  rintro ⟨c, hc, path, d, hd, hr⟩
  obtain ⟨t', m', h', ht, rfl⟩ := h.of_mem_catalogs hc
  exact h.holds_since (P := fun c => k ∈ c.filedOn disk) (fun _ hs => hs.files.kept) hc
    ((h'.sound_catalog fun x hx => hproper x (ht hx)).filed hd hr)

/-- On a course of proper moments, the indexes place a datum on a host exactly if the host can read
a replica of it, or mounts a disk on which the datum had a file at some time. -/
theorem Course.mem_dataOn_iff
    (h : Course rule { World.fresh policy localNodes withholds limit with disturbances } t m)
    (hproper : ∀ x ∈ t, x.isProper = true) {n k host : String}
    (hn : m.world.catalog.canonical? n = some k) :
    k ∈ m.world.catalog.dataOn host ↔
      host ∈ m.world.catalog.hostsOf n ∨
        ∃ disk point path, m.world.catalog.mounts.pointOf? disk host = some point ∧
          ∃ c ∈ m.catalogs t, c.Holds k (.diskFile disk path) := by
  have hsound := h.sound_catalog hproper
  obtain ⟨d, hd⟩ := hsound.named hn
  have hdatum : m.world.catalog.datum? n = some d := Option.bind_eq_some_iff.mpr ⟨k, hn, hd⟩
  rw [Catalog.mem_dataOn, Catalog.mem_hostsOf_iff hdatum]
  constructor
  · rintro (hplaced | ⟨disk, ⟨point, hpoint⟩, hfiled⟩)
    · obtain ⟨r, ⟨e, he, hr⟩, hsole⟩ := h.placed k host hplaced
      rw [hd] at he
      obtain rfl := Option.some_inj.mp he
      exact .inl ⟨r, hr, Replica.readableOn_of_soleHost? hsole⟩
    · obtain ⟨c, hc, path, hholds⟩ := h.exists_holds_of_filedOn hfiled
      exact .inr ⟨disk, point, path, hpoint, c, hc, hholds⟩
  · rintro (⟨r, hr, hread⟩ | ⟨disk, point, path, hpoint, c, hc, hholds⟩)
    · cases r with
      | ownFile _ _ => exact .inl (hsound.placed hd hr (congrArg some hread))
      | binding _ _ => exact .inl (hsound.placed hd hr (congrArg some hread))
      | persistent _ => exact hread.elim
      | diskFile disk path => exact .inr ⟨disk, hread, hsound.filed hd hr⟩
    · exact .inr ⟨disk, ⟨point, hpoint⟩, (h.mem_filedOn_iff hproper).mpr ⟨c, hc, path, hholds⟩⟩

/-! ### A file that leaves a disk -/

/-- The only host of the disk loses the datum that is shared on it, and stays. -/
def vacating : Machine := asked (sharing.advance 3).world 2 (.removeHost "d" "h")

/-- The moments of the grid until the datum is lost. -/
def vacated : List Moment := moments 2 vacating ++ (moments 3 sharing ++ (moments 2 mounting ++ []))

theorem course_vacating :
    Course (.quiet fun _ => True) { World.fresh .fifo [] false 8 with disturbances := [] } vacated
      ⟨(vacating.advance 2).world, []⟩ :=
  course_sharing.call 2 2 trivial (by decide +kernel)

theorem proper_vacated : ∀ x ∈ vacated, x.isProper = true :=
  List.all_eq_true.mp (by decide +kernel)

/-- The indexes place the datum on the host because it had a file on the disk, and for no other
reason. -/
theorem dataOn_vacating :
    "d" ∈ (vacating.advance 2).world.catalog.dataOn "h" ∧
      ∃ disk point path, (vacating.advance 2).world.catalog.mounts.pointOf? disk "h" = some point ∧
        ∃ c ∈ catalogs ⟨(vacating.advance 2).world, []⟩ vacated,
          c.Holds "d" (.diskFile disk path) := by
  have hplaced : "d" ∈ (vacating.advance 2).world.catalog.dataOn "h" := by decide +kernel
  have hn : (vacating.advance 2).world.catalog.canonical? "d" = some "d" := by decide +kernel
  exact ⟨hplaced, ((course_vacating.mem_dataOn_iff proper_vacated hn).mp hplaced).resolve_left
    (by decide +kernel)⟩

/-- So the two accounts of what a host holds may differ: a host that lost its only file of a datum
is still said to hold it. -/
theorem exists_course_dataOn_stale : ∃ t m,
    Course (.quiet fun _ => True) { World.fresh .fifo [] false 8 with disturbances := [] } t m ∧
      (∀ x ∈ t, x.isProper = true) ∧ m.world.catalog.canonical? "d" = some "d" ∧
      "d" ∈ m.world.catalog.dataOn "h" ∧ "h" ∉ m.world.catalog.hostsOf "d" :=
  ⟨_, _, course_vacating, proper_vacated, by decide +kernel, by decide +kernel, by decide +kernel⟩

end Machine

end TaskGrid
