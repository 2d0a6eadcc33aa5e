import TaskGrid.Proofs.RescueChoice

/-!
# How a host reads a datum

A reader asks where a datum is, by which replica a host reads it, and by which paths; the planner of
a transfer asks where a single replica lies.  The answers are computed in different ways: some look
up the mount point of one host, some list all hosts of a disk, and what is in persistent storage has
a path everywhere and yet is on no host.  They agree all the same.

* `Replica.mem_places_iff_pathOn?`: the list of places and the path on one host.
* `Catalog.resolve?_eq_some_iff`: the replica by which a host reads is the least on the host, or
  else the least in persistent storage.
* `Catalog.readsAlike`: all answers about one datum and one host.
-/

namespace TaskGrid

namespace SortedSet

variable {α : Type} [Ord α] {s : SortedSet α} {a : α}

/-- A member with a property that is not after any other member with it. -/
def Least (s : SortedSet α) (P : α → Prop) (a : α) : Prop :=
  (a ∈ s ∧ P a) ∧ ∀ b ∈ s, P b → (compare a b).isLE = true

variable [Std.TransOrd α] [Std.LawfulEqOrd α]

/-- A search finds the least member that passes the test. -/
theorem find?_eq_some_iff {p : α → Bool} :
    s.toList.find? p = some a ↔ s.Least (fun b => p b = true) a := by
  constructor
  · intro h
    exact ⟨⟨List.mem_of_find?_eq_some h, List.find?_some h⟩,
      fun b hb hp => isLE_of_find? s.sorted h hb hp⟩
  · rintro ⟨⟨hmem, hp⟩, hle⟩
    obtain ⟨b, hb⟩ : ∃ b, s.toList.find? p = some b :=
      Option.isSome_iff_exists.mp (List.find?_isSome.mpr ⟨a, hmem, hp⟩)
    have hba : (compare b a).isLE = true := isLE_of_find? s.sorted hb hmem hp
    have hab : (compare a b).isLE = true :=
      hle b (List.mem_of_find?_eq_some hb) (List.find?_some hb)
    rw [hb, Std.LawfulEqOrd.eq_of_compare (Std.OrientedCmp.isLE_antisymm hba hab)]

end SortedSet

namespace Replica

variable {m : Mounts} {host path : String} {r : Replica}

/-- Outside persistent storage, the places of a replica are the hosts on which it has a path, each
with that path. -/
theorem mem_places_iff_pathOn? (hr : r.isPersistent = false) :
    (host, path) ∈ r.places m ↔ r.pathOn? m host = some path := by
  cases r with
  | ownFile h p => simp [places, pathOn?, eq_comm]
  | binding h i => simp [places, pathOn?, eq_comm]
  | persistent i => cases hr
  | diskFile disk p =>
    simp only [places, pathOn?, List.mem_map, Option.map_eq_some_iff]
    constructor
    · rintro ⟨⟨h, point⟩, he, heq⟩
      obtain ⟨rfl, rfl⟩ := Prod.mk.inj heq
      exact ⟨point, Mounts.mem_hostsOf.mp he, rfl⟩
    · rintro ⟨point, hp, rfl⟩
      exact ⟨(host, point), Mounts.mem_hostsOf.mpr hp, rfl⟩

theorem isPersistent_iff : r.isPersistent = true ↔ ∃ id, r = .persistent id := by
  cases r <;> simp [isPersistent]

/-- A host can read what is not in persistent storage and has a path on it. -/
theorem readableOn_iff_pathOn? :
    r.ReadableOn m host ↔ r.isPersistent = false ∧ ∃ p, r.pathOn? m host = some p := by
  cases hr : r.isPersistent with
  | true =>
    cases r with
    | persistent i => simp [ReadableOn]
    | _ => cases hr
  | false =>
    rw [← mem_places_iff, List.mem_map]
    constructor
    · rintro ⟨⟨h, p⟩, hmem, rfl⟩
      exact ⟨rfl, p, (mem_places_iff_pathOn? hr).mp hmem⟩
    · rintro ⟨-, p, hp⟩
      exact ⟨(host, p), (mem_places_iff_pathOn? hr).mpr hp, rfl⟩

/-- What is in persistent storage has a path everywhere. -/
theorem isSome_pathOn?_of_isPersistent (hr : r.isPersistent = true) :
    (r.pathOn? m host).isSome = true := by
  cases r with
  | persistent i => rfl
  | _ => cases hr

/-- A host has a path to what it can read and to what is in persistent storage. -/
theorem isSome_pathOn?_iff :
    (r.pathOn? m host).isSome = true ↔ r.ReadableOn m host ∨ r.isPersistent = true := by
  rw [readableOn_iff_pathOn?, ← Option.isSome_iff_exists]
  cases hr : r.isPersistent with
  | true => simp [isSome_pathOn?_of_isPersistent hr]
  | false => simp

end Replica

namespace Catalog

variable {c : Catalog} {name host : String} {d : Datum} {r : Replica}

theorem resolve?_eq (hd : c.datum? name = some d) (host : String) :
    c.resolve? name host =
      (d.replicas.toList.find? fun r => !r.isPersistent && (r.pathOn? c.mounts host).isSome).or
        (d.replicas.toList.find? Replica.isPersistent) := by
  rw [resolve?, hd, Option.bind_some]

/-- The test of the search is that the host can read the replica. -/
theorem onHost_iff : (!r.isPersistent && (r.pathOn? c.mounts host).isSome) = true ↔
    r.ReadableOn c.mounts host := by
  rw [Replica.readableOn_iff_pathOn?, Bool.and_eq_true, Bool.not_eq_true',
    ← Option.isSome_iff_exists]

/-- The replica by which a host reads is the least that the host can read; where it can read none,
it is the least in persistent storage. -/
theorem resolve?_eq_some_iff (hd : c.datum? name = some d) :
    c.resolve? name host = some r ↔
      d.replicas.Least (·.ReadableOn c.mounts host) r ∨
        (∀ x ∈ d.replicas, ¬ x.ReadableOn c.mounts host) ∧
          d.replicas.Least (·.isPersistent = true) r := by
  rw [resolve?_eq hd, Option.or_eq_some_iff, SortedSet.find?_eq_some_iff,
    SortedSet.find?_eq_some_iff, List.find?_eq_none]
  simp only [onHost_iff, SortedSet.mem_toList]

/-- A host reads a datum by no replica if it can read none and none is in persistent storage. -/
theorem resolve?_eq_none_iff (hd : c.datum? name = some d) :
    c.resolve? name host = none ↔
      (∀ x ∈ d.replicas, ¬ x.ReadableOn c.mounts host) ∧
        ∀ x ∈ d.replicas, ¬ x.isPersistent = true := by
  rw [resolve?_eq hd, Option.or_eq_none_iff, List.find?_eq_none, List.find?_eq_none]
  simp only [onHost_iff, SortedSet.mem_toList]

/-- The paths are those of the replicas that have one, in the order of the replicas. -/
theorem forall₂_pathsOn (hd : c.datum? name = some d) (host : String) :
    List.Forall₂ (fun r p => r.pathOn? c.mounts host = some p)
      (d.replicas.toList.filter fun r => (r.pathOn? c.mounts host).isSome)
      (c.pathsOn name host) := by
  rw [pathsOn, hd, Option.map_some, Option.getD_some]
  induction d.replicas.toList with
  | nil => exact .nil
  | cons r l ih =>
    cases hp : r.pathOn? c.mounts host with
    | none =>
      rw [List.filter_cons_of_neg (by simp [hp]), List.filterMap_cons_none hp]
      exact ih
    | some p =>
      rw [List.filter_cons_of_pos (by simp [hp]), List.filterMap_cons_some hp]
      exact .cons hp ih

/-- A host has no path to a datum if it has none to any of the replicas. -/
theorem pathsOn_eq_nil_iff (hd : c.datum? name = some d) :
    c.pathsOn name host = [] ↔ ∀ x ∈ d.replicas, ¬ (x.pathOn? c.mounts host).isSome = true := by
  rw [← List.length_eq_zero_iff, ← (forall₂_pathsOn hd host).length_eq, List.length_eq_zero_iff,
    List.filter_eq_nil_iff]
  rfl

/-- A host that can read a replica reads by the least that it can read. -/
theorem exists_nearest (hd : c.datum? name = some d)
    (hr : ∃ x ∈ d.replicas, x.ReadableOn c.mounts host) :
    ∃ r, c.resolve? name host = some r ∧ d.replicas.Least (·.ReadableOn c.mounts host) r := by
  obtain ⟨x, hx, hread⟩ := hr
  cases h : c.resolve? name host with
  | none => exact absurd hread (((resolve?_eq_none_iff hd).mp h).1 x hx)
  | some r =>
    rcases (resolve?_eq_some_iff hd).mp h with hleast | ⟨hno, -⟩
    · exact ⟨r, rfl, hleast⟩
    · exact absurd hread (hno x hx)

/-- A host that can read no replica reads by the least in persistent storage. -/
theorem exists_stored (hd : c.datum? name = some d)
    (hno : ∀ x ∈ d.replicas, ¬ x.ReadableOn c.mounts host)
    (hs : ∃ x ∈ d.replicas, x.isPersistent = true) :
    ∃ r, c.resolve? name host = some r ∧ d.replicas.Least (·.isPersistent = true) r := by
  obtain ⟨x, hx, hstored⟩ := hs
  cases h : c.resolve? name host with
  | none => exact absurd hstored (((resolve?_eq_none_iff hd).mp h).2 x hx)
  | some r =>
    rcases (resolve?_eq_some_iff hd).mp h with ⟨⟨hmem, hread⟩, -⟩ | ⟨-, hleast⟩
    · exact absurd hread (hno r hmem)
    · exact ⟨r, rfl, hleast⟩

/-! ## Agreement -/

/-- What the answers about a datum and a host have in common. -/
structure ReadsAlike (c : Catalog) (name : String) (d : Datum) (host : String) : Prop where
  /-- The datum is on the host if a replica outside persistent storage has a path there. -/
  hosts : host ∈ c.hostsOf name ↔
    ∃ r ∈ d.replicas, r.isPersistent = false ∧ ∃ p, r.pathOn? c.mounts host = some p
  /-- A host that the datum is on reads by the least such replica. -/
  nearest : host ∈ c.hostsOf name → ∃ r, c.resolve? name host = some r ∧
    d.replicas.Least (fun r => r.isPersistent = false ∧ ∃ p, r.pathOn? c.mounts host = some p) r
  /-- Any other host reads by the least replica in persistent storage. -/
  stored : host ∉ c.hostsOf name → (∃ id, .persistent id ∈ d.replicas) →
    ∃ r, c.resolve? name host = some r ∧ d.replicas.Least (fun r => ∃ id, r = .persistent id) r
  /-- Without a replica in persistent storage it does not read at all. -/
  unread : host ∉ c.hostsOf name → (∀ id, .persistent id ∉ d.replicas) →
    c.resolve? name host = none
  /-- There is no path where there is no replica to read by. -/
  empty : c.pathsOn name host = [] ↔ c.resolve? name host = none
  /-- There is one path for each replica that has one, in the order of the replicas. -/
  paths : List.Forall₂ (fun r p => r.pathOn? c.mounts host = some p)
    (d.replicas.toList.filter fun r => (r.pathOn? c.mounts host).isSome) (c.pathsOn name host)
  /-- Whatever is not in persistent storage is listed on the host with its path there. -/
  places : ∀ r : Replica, r.isPersistent = false → ∀ p,
    (host, p) ∈ r.places c.mounts ↔ r.pathOn? c.mounts host = some p

/-- Whatever the replicas and the mounts are, all answers about a registered datum and a host
agree. -/
theorem readsAlike (hd : c.datum? name = some d) (host : String) : c.ReadsAlike name d host := by
  have hhosts : host ∈ c.hostsOf name ↔ ∃ r ∈ d.replicas, r.ReadableOn c.mounts host :=
    mem_hostsOf_iff hd
  have hnone (hoff : host ∉ c.hostsOf name) :
      ∀ r ∈ d.replicas, ¬ r.ReadableOn c.mounts host :=
    fun r hr hread => hoff (hhosts.mpr ⟨r, hr, hread⟩)
  exact {
    hosts := by simpa only [Replica.readableOn_iff_pathOn?] using hhosts
    nearest := fun hon => by
      simpa only [Replica.readableOn_iff_pathOn?] using exists_nearest hd (hhosts.mp hon)
    stored := fun hoff ⟨id, hid⟩ => by
      simpa only [Replica.isPersistent_iff] using exists_stored hd (hnone hoff) ⟨_, hid, rfl⟩
    unread := fun hoff hno => by
      refine (resolve?_eq_none_iff hd).mpr ⟨hnone hoff, fun r hr hstored => ?_⟩
      obtain ⟨id, rfl⟩ := Replica.isPersistent_iff.mp hstored
      exact hno id hr
    empty := by
      rw [pathsOn_eq_nil_iff hd, resolve?_eq_none_iff hd]
      simp only [Replica.isSome_pathOn?_iff, not_or, imp_and, forall_and]
    paths := forall₂_pathsOn hd host
    places := fun r hr p => Replica.mem_places_iff_pathOn? hr }

/-! ### Two hosts of a disk -/

/-- A datum with a file of a disk, which two hosts mount, an object of one of them, and a copy in
persistent storage. -/
def shelved : Catalog :=
  let c := (empty.mount "s" "g" "/s").mount "s" "h" "/mnt/"
  let c := (c.addReplica "d" (.persistent "p")).catalog
  let c := (c.addReplica "d" (.binding "g" "o")).catalog
  (c.addReplica "d" (.diskFile "s" "/d")).catalog

/-- The hosts read the file of the disk, each below its own mount point, and only then by what else
there is; any other host reads from persistent storage. -/
theorem readsAlike_shelved :
    ∃ d, shelved.datum? "d" = some d ∧ shelved.ReadsAlike "d" d "h" ∧
      shelved.ReadsAlike "d" d "x" ∧
      shelved.resolve? "d" "h" = some (.diskFile "s" "/d") ∧
      shelved.pathsOn "d" "h" = ["/mnt/d", "p"] ∧
      shelved.resolve? "d" "x" = some (.persistent "p") ∧
      (shelved.hostsOf "d").toList = ["g", "h"] := by
  obtain ⟨d, hd⟩ : ∃ d, shelved.datum? "d" = some d :=
    Option.isSome_iff_exists.mp (by decide +kernel)
  exact ⟨d, hd, readsAlike hd "h", readsAlike hd "x", by decide +kernel, by decide +kernel,
    by decide +kernel, by decide +kernel⟩

end Catalog

end TaskGrid
