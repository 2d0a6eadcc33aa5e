import TaskGrid.Proofs.HostIndex

/-!
# Which replica is saved

When a host is removed from a datum, the catalog decides twice: whether the datum has to be saved,
and from which of its leaving replicas.  It looks at more than the replicas for the first decision:
a datum with an identifier in persistent storage is not saved, nor is one that was handed out
before.  In every catalog that the grid can reach these marks say nothing that the replicas do not
say, so that the decision depends on the replicas and the mounts alone.

* `Replica.PreferredTo`: which of two replicas is saved rather than the other.
* `Catalog.Each`, `Catalog.Change.each`: what holds of every datum, whatever changes.
* `Catalog.Decides`: the two decisions, and what is left.
* `Catalog.Unfed`: a time in which a datum gains no replica.
* `Machine.Course.decides`: the decision in every state of a run.
-/

namespace TaskGrid

/-! ## Preference -/

namespace Replica

/-- The kinds of replicas in the order in which they are saved: a file of a host, an object of a
binding, a file of a shared disk. -/
def rank : Replica → Nat
  | ownFile .. => 0
  | binding .. => 1
  | diskFile .. => 2
  | persistent _ => 3

/-- A replica is saved rather than another if it is of a kind that is preferred, or of the same kind
and not after it in the order. -/
def PreferredTo (a b : Replica) : Prop :=
  a.rank < b.rank ∨ a.rank = b.rank ∧ (compare a b).isLE = true

end Replica

/-- A datum with a replica in persistent storage has an identifier there. -/
def Datum.Identified (d : Datum) : Prop :=
  ∀ id, .persistent id ∈ d.replicas → d.persistentId.isSome = true

theorem Datum.Identified.addReplica {d : Datum} (hd : d.Identified) (r : Replica) :
    (d.addReplica r).Identified := by
  intro id hid
  have hid : Replica.persistent id ∈ d.replicas.insert r := hid
  rcases SortedSet.mem_insert.mp hid with rfl | hold
  · rfl
  · cases r with
    | persistent _ => rfl
    | ownFile _ _ => exact hd id hold
    | diskFile _ _ => exact hd id hold
    | binding _ _ => exact hd id hold

/-- The first member of a sorted list that passes a test is the least that does. -/
theorem isLE_of_find? {α : Type} [Ord α] [Std.TransOrd α] {l : List α}
    (hl : l.Pairwise fun a b => compare a b = .lt) {p : α → Bool} {a b : α}
    (ha : l.find? p = some a) (hb : b ∈ l) (hp : p b = true) : (compare a b).isLE = true := by
  obtain ⟨-, before, after, rfl, hnot⟩ := List.find?_eq_some_iff_append.mp ha
  rcases List.mem_append.mp hb with hb | hb
  · have hfails := hnot b hb
    rw [hp] at hfails
    cases hfails
  · rcases List.mem_cons.mp hb with rfl | hb
    · exact Std.ReflOrd.isLE_rfl
    · have hsorted := List.pairwise_append.mp hl
      rw [(List.pairwise_cons.mp hsorted.2.1).1 b hb]
      rfl

namespace Catalog

variable {c c' : Catalog} {k n host : String} {r s : Replica} {proper : Bool}

/-- Of a sorted list of replicas outside persistent storage, the one to save is preferred to all. -/
theorem preferredTo_of_rescueSource? {l : List Replica}
    (hl : l.Pairwise fun a b => compare a b = .lt) (hkind : ∀ r ∈ l, r.isPersistent = false)
    (hs : rescueSource? l = some s) (hr : r ∈ l) : s.PreferredTo r := by
  unfold rescueSource? at hs
  rcases Option.or_eq_some_iff.mp hs with hfile | ⟨hfile, hs⟩
  · -- a file of a host is found
    have hp := List.find?_some hfile
    cases s with
    | ownFile _ _ =>
      cases r with
      | ownFile _ _ => exact .inr ⟨rfl, isLE_of_find? hl hfile hr rfl⟩
      | _ => exact .inl (Nat.zero_lt_succ _)
    | _ => cases hp
  · have hnofile := List.find?_eq_none.mp hfile
    rcases Option.or_eq_some_iff.mp hs with hobject | ⟨hobject, hhead⟩
    · -- no file of a host, but an object
      have hp := List.find?_some hobject
      cases s with
      | binding _ _ =>
        cases r with
        | ownFile _ _ => exact absurd rfl (hnofile _ hr)
        | binding _ _ => exact .inr ⟨rfl, isLE_of_find? hl hobject hr rfl⟩
        | diskFile _ _ => exact .inl (Nat.lt_succ_self 1)
        | persistent _ => cases hkind _ hr
      | _ => cases hp
    · -- files of shared disks only
      have hnoobject := List.find?_eq_none.mp hobject
      have hdisk {x : Replica} (hx : x ∈ l) : x.rank = 2 := by
        cases x with
        | ownFile _ _ => exact absurd rfl (hnofile _ hx)
        | binding _ _ => exact absurd rfl (hnoobject _ hx)
        | diskFile _ _ => rfl
        | persistent _ => cases hkind _ hx
      have hfirst : l.find? (fun _ => true) = some s := by
        cases l with
        | nil => cases hhead
        | cons _ _ => exact hhead
      exact .inr ⟨(hdisk (List.mem_of_head? hhead)).trans (hdisk hr).symm,
        isLE_of_find? hl hfirst hr rfl⟩

/-- The replica that is saved leaves, and is preferred to all that do. -/
theorem preferredTo_of_rescue? {d : Datum} (hs : c.rescue? host d = some s) :
    (s ∈ d.replicas ∧ s.LeavesWith c.mounts host) ∧
      ∀ r ∈ d.replicas, r.LeavesWith c.mounts host → s.PreferredTo r := by
  unfold rescue? at hs
  split at hs
  · cases hs
  · have hmem : s ∈ d.replicas.filter (c.leavesWith host) := mem_of_rescueSource? hs
    obtain ⟨hd, hl⟩ := SortedSet.mem_filter.mp hmem
    refine ⟨⟨hd, leavesWith_iff.mp hl⟩, fun r hr hleaves => ?_⟩
    refine preferredTo_of_rescueSource? (SortedSet.sorted _) (fun x hx => ?_) hs
      (SortedSet.mem_filter.mpr ⟨hr, leavesWith_iff.mpr hleaves⟩)
    have hx := (SortedSet.mem_filter.mp hx).2
    cases x with
    | persistent _ => cases hx
    | _ => rfl

/-! ## What holds of every datum -/

/-- Something holds of every datum. -/
def Each (P : Datum → Prop) (c : Catalog) : Prop := ∀ k d, c.data.get? k = some d → P d

section Each

variable {P : Datum → Prop} (hnamed : ∀ name, P (.named name))
  (hsimilar : ∀ {d e : Datum}, d.Similar e → P d → P e)
  (hadd : ∀ {d : Datum} (r : Replica), P d → P (d.addReplica r))
  (hwithout : ∀ {c : Catalog} {d : Datum} (host : String), P d → P (c.without host d))

include hsimilar in
theorem Each.similar (hc : c.Each P) (h : c.Similar c') : c'.Each P := by
  intro k e he
  obtain ⟨d, hd, hs⟩ := h.back he
  exact hsimilar hs (hc k d hd)

include hnamed in
theorem Each.register (hc : c.Each P) (name : String) : (c.register name).Each P := by
  intro k d hd
  unfold Catalog.register at hd
  split at hd
  · exact hc k d hd
  · rw [SortedMap.get?_insert] at hd
    split at hd
    · rw [← Option.some_inj.mp hd]
      exact hnamed name
    · exact hc k d hd

include hadd in
theorem Each.insertReplica (hc : c.Each P) (n : String) (r : Replica) :
    (c.insertReplica n r).catalog.Each P := by
  rcases c.insertReplica_cases n r with hsame | ⟨d, hd, -, hnew⟩
  · rwa [hsame]
  · intro k e he
    rw [hnew, get?_update, data_index] at he
    split at he
    · rw [hd, Option.map_some, Option.some_inj] at he
      exact he ▸ hadd r (hc n d hd)
    · exact hc k e he

include hwithout in
theorem Each.removeHost (hc : c.Each P) (name host : String) :
    (c.removeHost name host).2.Each P := by
  rcases c.removeHost_cases name host with ⟨-, hsame⟩ | ⟨j, d, hn, hd, -⟩
  · rwa [hsame]
  · intro k e he
    rw [get?_removeHost hn hd] at he
    split at he
    · rw [← Option.some_inj.mp he]
      exact hwithout host (hc j d hd)
    · exact hc k e he

include hnamed hsimilar hadd hwithout in
/-- What holds of a new datum, and is kept when a datum gains a replica and when it loses those that
leave with a host, holds of every datum whatever changes. -/
theorem Change.each (h : Change proper c c') (hc : c.Each P) : c'.Each P := by
  cases h with
  | register name => exact hc.register hnamed name
  | @link name existing l linked _ =>
    obtain ⟨k, -, rfl⟩ := Option.map_eq_some_iff.mp linked
    have hlinked : (c.update k (·.addName name)).Each P :=
      hc.similar hsimilar (similar_update c k fun d => d.similar_addName name)
    exact hlinked
  | addReplica name r => exact (hc.register hnamed name).insertReplica hadd _ r
  | finishCopy h =>
    obtain ⟨e, he, rfl⟩ := Option.map_eq_some_iff.mp h
    exact (hc.similar hsimilar (alike_retireCopy he).toSimilar).insertReplica hadd _ _
  | removeHost name host => exact hc.removeHost hwithout name host
  | departHost host =>
    exact departHost_preserves (fun name hb => hb.removeHost hwithout name host) (fun hb => hb) hc
  | forgetHost host _ => exact hc
  | alike h => exact hc.similar hsimilar h.toSimilar

end Each

/-- No change takes the identifier from a datum with a replica in persistent storage. -/
theorem Changes.identified (h : Changes proper c c') (hc : c.Each Datum.Identified) :
    c'.Each Datum.Identified := by
  induction h with
  | refl => exact hc
  | tail _ hch ih =>
    refine hch.each (fun name id hid => absurd hid (SortedSet.not_mem_empty _)) ?_
      (fun r hd => hd.addReplica r) ?_ ih
    · intro d e hs hd id hid
      rw [hs.persistentId]
      exact hd id (hs.replicas ▸ hid)
    · intro b d host hd id hid
      exact hd id (mem_replicas_without.mp hid).1

/-! ## The decision -/

/-- A host was removed from the datum `d` of canonical name `k`, with an answer that hands out one
of its replicas or none, and a catalog that is left. -/
structure Decides (c : Catalog) (k : String) (d : Datum) (host : String) (answer : Option Replica)
    (c' : Catalog) : Prop where
  /-- Exactly the leaving replicas are taken from the datum, and whether it was handed out is all
  else that changes of it. -/
  taken : ∃ e, c'.data.get? k = some e ∧
    (∀ r, r ∈ e.replicas ↔ r ∈ d.replicas ∧ ¬ r.LeavesWith c.mounts host) ∧
    e = { d with replicas := e.replicas, rescueIssued := d.rescueIssued || answer.isSome }
  /-- Nothing happens to another datum. -/
  others : ∀ j, j ≠ k → c'.data.get? j = c.data.get? j
  /-- Names stand for what they stood for, and hosts mount what they did. -/
  kept : c'.names = c.names ∧ c'.mounts = c.mounts
  /-- A replica is handed out if some leave and none stays. -/
  answered : answer.isSome = true ↔ (∃ r ∈ d.replicas, r.LeavesWith c.mounts host) ∧
    ∀ r ∈ d.replicas, r.LeavesWith c.mounts host
  /-- It is one of the leaving replicas, and preferred to all of them. -/
  source : ∀ s, answer = some s → (s ∈ d.replicas ∧ s.LeavesWith c.mounts host) ∧
    ∀ r ∈ d.replicas, r.LeavesWith c.mounts host → s.PreferredTo r
  /-- The datum has an identifier in persistent storage exactly if it has a replica there. -/
  identified : d.persistentId.isSome = true ↔ ∃ id, .persistent id ∈ d.replicas
  /-- A datum that is marked as handed out has no replica. -/
  issued : d.rescueIssued = true → ∀ r, r ∉ d.replicas

theorem decides_removeHost {d : Datum} (hsound : d.Sound) (hid : d.Identified)
    (hn : c.canonical? n = some k) (hd : c.data.get? k = some d) (host : String) :
    c.Decides k d host (c.removeHost n host).1 (c.removeHost n host).2 := by
  have hanswer : (c.removeHost n host).1 = c.rescue? host d := by rw [removeHost_eq hn hd]
  rw [hanswer]
  exact
    { taken := ⟨c.without host d, (get?_removeHost hn hd host k).trans (if_pos rfl),
        fun r => mem_replicas_without, rfl⟩
      others := fun j hj => (get?_removeHost hn hd host j).trans (if_neg hj)
      kept := ⟨names_removeHost c n host, by rw [removeHost_eq hn hd]; rfl⟩
      answered := by
        rw [Option.isSome_iff_exists, isSome_rescue?_iff hsound, LostWith]
        refine and_congr_left fun hall => exists_congr fun r => ?_
        exact ⟨fun hr => ⟨hr, hall r hr⟩, And.left⟩
      source := fun s hs => preferredTo_of_rescue? hs
      identified := ⟨hsound.persistent, fun ⟨id, h⟩ => hid id h⟩
      issued := hsound.issued }

/-! ## Until a replica is added -/

/-- Changes in which the datum of canonical name `k` gains no replica. -/
def Unfed (k : String) : Catalog → Catalog → Prop :=
  Relation.ReflTransGen fun a b => Change false a b ∧ ∀ r, b.Holds k r → a.Holds k r

theorem Unfed.holds {k : String} (h : Unfed k c c') (hr : c'.Holds k r) : c.Holds k r := by
  induction h with
  | refl => exact hr
  | tail _ hstep ih => exact ih (hstep.2 r hr)

/-- A datum that was handed out has no replica left, and one without replicas is not handed out. -/
theorem Unfed.removeHost_eq_none {d : Datum} {k n' host' : String}
    (h : Unfed k (c.removeHost n host).2 c') (hn : c.canonical? n = some k)
    (hd : c.data.get? k = some d) (hlost : c.LostWith host d) (hn' : c'.canonical? n' = some k) :
    (c'.removeHost n' host').1 = none := by
  rcases c'.removeHost_cases n' host' with ⟨-, heq⟩ | ⟨j, e, hj, he, heq⟩
  · rw [heq]
  · rw [heq]
    rw [hn', Option.some_inj] at hj
    subst hj
    refine Option.eq_none_iff_forall_ne_some.mpr fun s hs => ?_
    obtain ⟨d', hd', hr⟩ := h.holds ⟨e, he, mem_of_rescue? hs⟩
    rw [get?_removeHost hn hd, if_pos rfl, Option.some_inj] at hd'
    obtain ⟨hr, hstays⟩ := mem_replicas_without.mp (hd' ▸ hr)
    exact hstays (hlost.2 s hr)

end Catalog

namespace Machine

variable {rule : Conduct} {policy : Policy} {localNodes : List String} {withholds : Bool}
  {limit : Nat} {disturbances : List Disturbance} {t : List Moment} {m : Machine}

theorem Course.identified
    (h : Course rule { World.fresh policy localNodes withholds limit with disturbances } t m) :
    m.world.catalog.Each Datum.Identified :=
  h.catalog_induction (fun _ _ hd => by cases hd) fun _ hs => hs.changes.identified

/-- In every state of a run, and in every state of the catalog in between, removing a host from a
datum takes exactly the replicas that leave with it.  One of them is handed out exactly if no other
replica stays, the preferred one, and then none again before the datum gains a replica. -/
theorem Course.decides
    (h : Course rule { World.fresh policy localNodes withholds limit with disturbances } t m)
    {c : Catalog} (hc : Catalog.Changes false m.world.catalog c) (name host : String) :
    (c.datum? name = none → c.removeHost name host = (none, c)) ∧
      ∀ k d, c.canonical? name = some k → c.data.get? k = some d →
        c.Decides k d host (c.removeHost name host).1 (c.removeHost name host).2 ∧
          ∀ s, (c.removeHost name host).1 = some s →
            ∀ c', Catalog.Unfed k (c.removeHost name host).2 c' →
              ∀ name' host', c'.canonical? name' = some k →
                (c'.removeHost name' host').1 = none := by
  have hmarked : c.Marked := hc.marked h.listed_marked.2
  have hid : c.Each Datum.Identified := hc.identified h.identified
  refine ⟨fun hnone => Catalog.removeHost_of_none hnone host, fun k d hn hd => ?_⟩
  have hdecides := Catalog.decides_removeHost (hmarked k d hd) (hid k d hd) hn hd host
  refine ⟨hdecides, fun s hs c' hunfed name' host' hn' => ?_⟩
  obtain ⟨⟨r, hr, -⟩, hall⟩ := hdecides.answered.mp (Option.isSome_iff_exists.mpr ⟨s, hs⟩)
  exact hunfed.removeHost_eq_none hn hd ⟨⟨r, hr⟩, hall⟩ hn'

/-! ### A file of a disk and an object -/

/-- The datum of the shared disk is also an object of a binding on the host. -/
def twofold : Machine := asked (sharing.advance 3).world 2 (.addReplica "d" (.binding "h" "o"))

theorem course_twofold :
    Course (.quiet fun _ => True) { World.fresh .fifo [] false 8 with disturbances := [] }
      (moments 2 twofold ++ (moments 3 sharing ++ (moments 2 mounting ++ [])))
      ⟨(twofold.advance 2).world, []⟩ :=
  course_sharing.call 2 2 trivial (by decide +kernel)

/-- Both leave with the host.  The object is handed out, although the file comes first in the order,
and nothing is handed out when the host is removed once more. -/
theorem decides_twofold :
    ∃ d, (twofold.advance 2).world.catalog.data.get? "d" = some d ∧
      .diskFile "s" "/d" ∈ d.replicas ∧
      ((twofold.advance 2).world.catalog.removeHost "d" "h").1 = some (.binding "h" "o") ∧
      (∀ r ∈ d.replicas, r.LeavesWith (twofold.advance 2).world.catalog.mounts "h" ∧
        (Replica.binding "h" "o").PreferredTo r) ∧
      (((twofold.advance 2).world.catalog.removeHost "d" "h").2.removeHost "d" "h").1 = none := by
  have hd : (twofold.advance 2).world.catalog.data.get? "d" =
      some (((Datum.named "d").addReplica (.diskFile "s" "/d")).addReplica (.binding "h" "o")) := by
    decide +kernel
  have hanswer : ((twofold.advance 2).world.catalog.removeHost "d" "h").1 =
      some (.binding "h" "o") := by decide +kernel
  obtain ⟨hdecides, hnever⟩ :=
    (course_twofold.decides (.refl _) "d" "h").2 "d" _ (by decide +kernel) hd
  have hall := (hdecides.answered.mp (by rw [hanswer]; rfl)).2
  refine ⟨_, hd, by decide +kernel, hanswer, fun r hr => ⟨hall r hr, ?_⟩, ?_⟩
  · exact (hdecides.source _ hanswer).2 r hr (hall r hr)
  · exact hnever _ hanswer _ .refl "d" "h" (by decide +kernel)

end Machine

end TaskGrid
