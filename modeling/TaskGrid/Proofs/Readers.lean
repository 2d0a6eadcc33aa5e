import TaskGrid.Proofs.Saving

/-!
# Who can read a datum

A host can read its own files and objects, and the files of the disks that it mounts; what is in
persistent storage is on no host.  So the readers of a datum follow from its replicas and from the
mount table, and when a host leaves, all others that could read the datum still can.

Yet the last reader may leave in silence.  A file of a disk that nobody mounts has no reader, but it
is a replica all the same: as long as the datum has one, nothing is handed out to be saved.

* `Replica.ReadableOn`, `Catalog.mem_hostsOf_iff`: the readers of a datum.
* `Catalog.mem_hostsOf_left_iff`: the readers that are left.
* `Replica.Stranded`: a replica that nobody can read.
* `Catalog.removeHost_of_stays`: a replica that stays keeps the datum from being handed out.
* `Machine.Course.saved_iff`: when the last reader leaves, the datum is saved unless a replica is
  stranded, and then it keeps that replica.
-/

namespace TaskGrid

namespace Replica

/-- A host can read a replica that is on it, or on a disk that it mounts. -/
def ReadableOn (m : Mounts) (host : String) : Replica → Prop
  | ownFile h _ => h = host
  | binding h _ => h = host
  | diskFile disk _ => ∃ point, m.pointOf? disk host = some point
  | persistent _ => False

/-- A replica on a disk that no host mounts. -/
def Stranded (m : Mounts) : Replica → Prop
  | diskFile disk _ => ∀ host, m.pointOf? disk host = none
  | _ => False

variable {m : Mounts} {host h : String} {r : Replica}

/-- The hosts that hold a replica are those that can read it. -/
theorem mem_places_iff : host ∈ (r.places m).map Prod.fst ↔ r.ReadableOn m host := by
  cases r with
  | ownFile _ _ => simp [places, ReadableOn, eq_comm]
  | binding _ _ => simp [places, ReadableOn, eq_comm]
  | persistent _ => simp [places, ReadableOn]
  | diskFile disk path =>
    simp only [places, ReadableOn, List.map_map, List.mem_map, Prod.exists, Function.comp_apply]
    constructor
    · rintro ⟨h, point, he, rfl⟩
      exact ⟨point, Mounts.mem_hostsOf.mp he⟩
    · rintro ⟨point, hp⟩
      exact ⟨host, point, Mounts.mem_hostsOf.mpr hp, rfl⟩

theorem readableOn_of_soleHost? (hs : r.soleHost? = some host) : r.ReadableOn m host := by
  cases r with
  | ownFile _ _ => exact Option.some_inj.mp hs
  | binding _ _ => exact Option.some_inj.mp hs
  | diskFile _ _ => cases hs
  | persistent _ => cases hs

/-- What leaves with a host could be read there, and nowhere else. -/
theorem LeavesWith.readableOn_iff (hl : r.LeavesWith m host) : r.ReadableOn m h ↔ h = host := by
  cases r with
  | ownFile _ _ => exact eq_comm.trans (hl ▸ .rfl)
  | binding _ _ => exact eq_comm.trans (hl ▸ .rfl)
  | persistent _ => exact hl.elim
  | diskFile disk _ =>
    refine ⟨fun ⟨point, hp⟩ => hl.2 h point hp, ?_⟩
    rintro rfl
    exact hl.1

/-- When the host has unmounted its disks, a replica that stays is read by the others that could
read it. -/
theorem readableOn_unmountHost_iff (hs : ¬ r.LeavesWith m host) :
    r.ReadableOn (m.unmountHost host) h ↔ h ≠ host ∧ r.ReadableOn m h := by
  cases r with
  | ownFile _ _ => exact ⟨fun he => ⟨fun hh => hs (he.trans hh), he⟩, And.right⟩
  | binding _ _ => exact ⟨fun he => ⟨fun hh => hs (he.trans hh), he⟩, And.right⟩
  | persistent _ => exact (and_iff_right_of_imp False.elim).symm
  | diskFile disk _ =>
    simp only [ReadableOn, Mounts.pointOf?_unmountHost]
    by_cases hh : h = host <;> simp [hh]

/-- A replica that only one host can read leaves with it. -/
theorem leavesWith_of_readableOn (hr : r.ReadableOn m host)
    (hsole : ∀ h, r.ReadableOn m h → h = host) : r.LeavesWith m host := by
  cases r with
  | ownFile _ _ => exact hr
  | binding _ _ => exact hr
  | persistent _ => exact hr
  | diskFile disk _ => exact ⟨hr, fun h point hp => hsole h ⟨point, hp⟩⟩

/-- A replica that is not in persistent storage is stranded if nobody can read it. -/
theorem stranded_iff (hp : r.isPersistent = false) :
    r.Stranded m ↔ ∀ host, ¬ r.ReadableOn m host := by
  cases r with
  | ownFile h _ => exact ⟨False.elim, fun hall => hall h rfl⟩
  | binding h _ => exact ⟨False.elim, fun hall => hall h rfl⟩
  | persistent _ => cases hp
  | diskFile disk _ => simp only [Stranded, ReadableOn, ← Option.eq_none_iff_forall_ne_some,
      not_exists]

/-- A stranded replica stays, whoever leaves. -/
theorem Stranded.not_leavesWith (h : r.Stranded m) (host : String) : ¬ r.LeavesWith m host := by
  intro hl
  cases r with
  | diskFile disk _ =>
    obtain ⟨point, hpoint⟩ := hl.1
    rw [h host] at hpoint
    cases hpoint
  | _ => exact h

end Replica

namespace Catalog

variable {c : Catalog} {name host h : String} {d : Datum} {r : Replica}

/-- Who reads a datum: whoever can read one of its replicas. -/
theorem mem_hostsOf_iff (hd : c.datum? name = some d) :
    host ∈ c.hostsOf name ↔ ∃ r ∈ d.replicas, r.ReadableOn c.mounts host := by
  rw [hostsOf, hd, Option.map_some, Option.getD_some, holders, SortedSet.mem_ofList,
    List.mem_flatMap]
  simp only [Replica.mem_places_iff]
  rfl

theorem fst_removeHost (hd : c.datum? name = some d) (host : String) :
    (c.removeHost name host).1 = c.rescue? host d := by
  obtain ⟨k, hn, hk⟩ := Option.bind_eq_some_iff.mp hd
  rw [removeHost_eq hn hk]

theorem datum?_removeHost (hd : c.datum? name = some d) (host : String) :
    (c.removeHost name host).2.datum? name = some (c.without host d) := by
  obtain ⟨k, hn, hk⟩ := Option.bind_eq_some_iff.mp hd
  have hname : (c.removeHost name host).2.canonical? name = some k := by
    rwa [canonical?_congr (names_removeHost c name host)]
  exact Option.bind_eq_some_iff.mpr ⟨k, hname, (get?_removeHost hn hk host k).trans (if_pos rfl)⟩

/-- Where a replica of a datum stays, nothing is handed out, and the datum still has it. -/
theorem removeHost_of_stays (hd : c.datum? name = some d) (hsound : d.Sound)
    (hr : r ∈ d.replicas) (hstays : ¬ r.LeavesWith c.mounts host) :
    (c.removeHost name host).1 = none ∧
      ∃ d', (c.removeHost name host).2.datum? name = some d' ∧ r ∈ d'.replicas := by
  refine ⟨?_, _, datum?_removeHost hd host, mem_replicas_without.mpr ⟨hr, hstays⟩⟩
  rw [fst_removeHost hd, Option.eq_none_iff_forall_ne_some]
  intro s hs
  exact hstays (((isSome_rescue?_iff hsound).mp ⟨s, hs⟩).2 r hr)

/-- When a datum has lost what leaves with a host, and the host has unmounted its disks, the datum
is read by the others that could read it. -/
theorem mem_hostsOf_left_iff (hd : c.datum? name = some d) :
    h ∈ ((c.removeHost name host).2.unmountHost host).hostsOf name ↔
      h ≠ host ∧ h ∈ c.hostsOf name := by
  have hleft : ((c.removeHost name host).2.unmountHost host).datum? name =
      some (c.without host d) := datum?_removeHost hd host
  have hmounts : ((c.removeHost name host).2.unmountHost host).mounts =
      c.mounts.unmountHost host := by
    obtain ⟨k, hn, hk⟩ := Option.bind_eq_some_iff.mp hd
    rw [removeHost_eq hn hk]
    rfl
  rw [mem_hostsOf_iff hleft, mem_hostsOf_iff hd, hmounts]
  constructor
  · rintro ⟨r, hr, hread⟩
    obtain ⟨hr, hstays⟩ := mem_replicas_without.mp hr
    obtain ⟨hne, hread⟩ := (Replica.readableOn_unmountHost_iff hstays).mp hread
    exact ⟨hne, r, hr, hread⟩
  · rintro ⟨hne, r, hr, hread⟩
    have hstays : ¬ r.LeavesWith c.mounts host := fun hl => hne (hl.readableOn_iff.mp hread)
    exact ⟨r, mem_replicas_without.mpr ⟨hr, hstays⟩,
      (Replica.readableOn_unmountHost_iff hstays).mpr ⟨hne, hread⟩⟩

/-- Where the readers of a datum leave with a host, so do its replicas, if none of them is stranded
and none is in persistent storage. -/
theorem leavesWith_of_not_mem_hostsOf_left (hd : c.datum? name = some d)
    (hp : ∀ id, .persistent id ∉ d.replicas) (hnone : ∀ r ∈ d.replicas, ¬ r.Stranded c.mounts)
    (hafter : ∀ h, h ∉ ((c.removeHost name host).2.unmountHost host).hostsOf name)
    (hr : r ∈ d.replicas) : r.LeavesWith c.mounts host := by
  -- no other host reads the replica, but since it is not stranded somebody does
  have hsole (h : String) (hread : r.ReadableOn c.mounts h) : h = host := by
    by_contra hne
    exact hafter h ((mem_hostsOf_left_iff hd).mpr ⟨hne, (mem_hostsOf_iff hd).mpr ⟨r, hr, hread⟩⟩)
  have hkind : r.isPersistent = false := by
    cases r with
    | persistent id => exact absurd hr (hp id)
    | _ => rfl
  obtain ⟨h, hread⟩ : ∃ h, r.ReadableOn c.mounts h := by
    by_contra hall
    exact hnone r hr ((Replica.stranded_iff hkind).mpr (not_exists.mp hall))
  exact Replica.leavesWith_of_readableOn (hsole h hread ▸ hread) hsole

end Catalog

namespace Machine

variable {rule : Conduct} {policy : Policy} {localNodes : List String} {withholds : Bool}
  {limit : Nat} {disturbances : List Disturbance} {t : List Moment} {m : Machine}

/-- When the only reader of a datum leaves, and the datum is not in persistent storage, it is saved
from one of the replicas of the leaving host, unless a replica of it is stranded: the command to
take the leaving replicas returns one of them exactly if none is.  If one is, the command returns
nothing and the datum keeps the stranded replica, which nobody can read. -/
theorem Course.saved_iff
    (h : Course rule { World.fresh policy localNodes withholds limit with disturbances } t m)
    {name host : String} {d : Datum} (hd : m.world.catalog.datum? name = some d)
    (hp : ∀ id, .persistent id ∉ d.replicas) (hbefore : ∃ h, h ∈ m.world.catalog.hostsOf name)
    (hafter : ∀ h, h ∉ ((m.world.catalog.removeHost name host).2.unmountHost host).hostsOf name) :
    ((∃ s ∈ d.replicas, s.ReadableOn m.world.catalog.mounts host ∧
        (m.world.catalog.removeHost name host).1 = some s) ↔
      ∀ r ∈ d.replicas, ¬ r.Stranded m.world.catalog.mounts) ∧
    ∀ r ∈ d.replicas, r.Stranded m.world.catalog.mounts →
      (m.world.catalog.removeHost name host).1 = none ∧
        ∃ d', (m.world.catalog.removeHost name host).2.datum? name = some d' ∧
          r ∈ d'.replicas := by
  obtain ⟨k, -, hk⟩ := Option.bind_eq_some_iff.mp hd
  have hsound : d.Sound := h.listed_marked.2 k d hk
  have hstranded (r : Replica) (hr : r ∈ d.replicas) (hst : r.Stranded m.world.catalog.mounts) :=
    Catalog.removeHost_of_stays hd hsound hr (hst.not_leavesWith host)
  refine ⟨⟨?_, fun hnone => ?_⟩, hstranded⟩
  · rintro ⟨s, -, -, hs⟩ r hr hst
    rw [(hstranded r hr hst).1] at hs
    cases hs
  · have hleaves (r : Replica) (hr : r ∈ d.replicas) : r.LeavesWith m.world.catalog.mounts host :=
      Catalog.leavesWith_of_not_mem_hostsOf_left hd hp hnone hafter hr
    obtain ⟨x, hx⟩ := hbefore
    obtain ⟨r₀, hr₀, -⟩ := (Catalog.mem_hostsOf_iff hd).mp hx
    obtain ⟨s, hs⟩ := (Catalog.isSome_rescue?_iff hsound).mpr ⟨⟨r₀, hr₀⟩, hleaves⟩
    have hmem := Catalog.mem_of_rescue? hs
    exact ⟨s, hmem, (hleaves s hmem).readableOn_iff.mpr rfl,
      (Catalog.fst_removeHost hd host).trans hs⟩

/-! ### A datum on two disks -/

/-- A host mounts a disk. -/
def mounting : Machine := asked (.fresh .fifo [] false 8) 0 (.mount "s" "h" "/s")

/-- A file of the disk is the first replica of a datum. -/
def sharing : Machine :=
  asked (mounting.advance 2).world 1 (.addReplica "d" (.diskFile "s" "/d"))

/-- The second is the file of a disk that nobody mounts. -/
def stranding : Machine :=
  asked (sharing.advance 3).world 2 (.addReplica "d" (.diskFile "t" "/d"))

theorem course_sharing :
    Course (.quiet fun _ => True) { World.fresh .fifo [] false 8 with disturbances := [] }
      (moments 3 sharing ++ (moments 2 mounting ++ [])) ⟨(sharing.advance 3).world, []⟩ :=
  (Course.start.call 0 2 trivial (by decide +kernel)).call 1 3 trivial (by decide +kernel)

/-- While the datum is on one disk only, it is saved when the only host of the disk leaves. -/
theorem saved_sharing :
    ∃ d, (sharing.advance 3).world.catalog.datum? "d" = some d ∧
      (∀ id, .persistent id ∉ d.replicas) ∧
      (∃ h, h ∈ (sharing.advance 3).world.catalog.hostsOf "d") ∧
      (∀ h, h ∉ (((sharing.advance 3).world.catalog.removeHost "d" "h").2.unmountHost
        "h").hostsOf "d") ∧
      ∃ s ∈ d.replicas, s.ReadableOn (sharing.advance 3).world.catalog.mounts "h" ∧
        ((sharing.advance 3).world.catalog.removeHost "d" "h").1 = some s := by
  have hdatum : (sharing.advance 3).world.catalog.datum? "d" =
      some ((Datum.named "d").addReplica (.diskFile "s" "/d")) := by decide +kernel
  have hone {r : Replica} (hr : r ∈ ((Datum.named "d").addReplica (.diskFile "s" "/d")).replicas) :
      r = .diskFile "s" "/d" :=
    (SortedSet.mem_insert.mp hr).resolve_right (SortedSet.not_mem_empty r)
  have hp (id : String) :
      .persistent id ∉ ((Datum.named "d").addReplica (.diskFile "s" "/d")).replicas :=
    fun hr => nomatch hone hr
  have hbefore : "h" ∈ (sharing.advance 3).world.catalog.hostsOf "d" := by decide +kernel
  have hafter (h : String) : h ∉ (((sharing.advance 3).world.catalog.removeHost
      "d" "h").2.unmountHost "h").hostsOf "d" := SortedSet.isEmpty_iff.mp (by decide +kernel) h
  refine ⟨_, hdatum, hp, ⟨"h", hbefore⟩, hafter,
    (course_sharing.saved_iff hdatum hp ⟨"h", hbefore⟩ hafter).1.mpr fun r hr hst => ?_⟩
  have hmounted : ((sharing.advance 3).world.catalog.mounts.pointOf? "s" "h").isSome = true := by
    decide +kernel
  rw [hone hr] at hst
  rw [hst "h"] at hmounted
  cases hmounted

/-- When the only reader of the datum on two disks leaves, it is not saved: the disk that nobody
mounts still has a file of it. -/
theorem exists_course_unsaved : ∃ t m,
    Course (.quiet fun _ => True) { World.fresh .fifo [] false 8 with disturbances := [] } t m ∧
      ∃ d, m.world.catalog.datum? "d" = some d ∧ (∀ id, .persistent id ∉ d.replicas) ∧
        (∃ h, h ∈ m.world.catalog.hostsOf "d") ∧
        (∀ h, h ∉ ((m.world.catalog.removeHost "d" "h").2.unmountHost "h").hostsOf "d") ∧
        (m.world.catalog.removeHost "d" "h").1 = none := by
  refine ⟨_, _, course_sharing.call 2 2 trivial
    (show (stranding.advance 2).agenda.isEmpty = true by decide +kernel),
    ((Datum.named "d").addReplica (.diskFile "s" "/d")).addReplica (.diskFile "t" "/d"), ?_⟩
  rw [show asked _ 2 _ = stranding from rfl]
  refine ⟨by decide +kernel, fun id hr => ?_, ⟨"h", by decide +kernel⟩,
    fun h => SortedSet.isEmpty_iff.mp (by decide +kernel) h, by decide +kernel⟩
  rcases SortedSet.mem_insert.mp hr with hr | hr
  · cases hr
  · rcases SortedSet.mem_insert.mp hr with hr | hr
    · cases hr
    · exact SortedSet.not_mem_empty _ hr

end Machine

end TaskGrid
