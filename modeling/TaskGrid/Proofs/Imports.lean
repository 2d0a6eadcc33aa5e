import TaskGrid.Proofs.Saving

/-!
# Data that are taken over

A datum that was produced elsewhere is taken over from a list of sources: replicas, whose hosts may
have to be registered first, and other names under which it is known here already.  The replicas
are all recorded.  Of the other names only the last one that is registered is remembered, and the
name is linked to it only if it is new here, but all of them are counted: the answer may speak of
sources that nothing was recorded from.

What can be read under the name afterwards is thus what could be read under one name before
(`RemoteData.origin`), and the replicas.  A datum that is available under one of the other names
does not help if that is not the last one, or if the name was registered before.

## The argument

Looking at the sources changes no data: hosts that are registered lead to passes, and passes to
events that end no action.  So what was found is found in the data as they were
(`World.exists_gathered`).  The name is then linked, if it is, and each replica adds to what can be
read under it; what is announced in between changes no data either.

* `Catalog.Reads`: what can be read under a name.
* `World.TakesOver`: a datum was taken over.
* `Machine.Course.importsData`: the call returns and has taken the datum over, in every state.
-/

namespace TaskGrid

/-! ## What can be read under a name -/

namespace Catalog

variable {c : Catalog} {n k : String} {r s : Replica}

/-- The datum behind a name has a replica. -/
def Reads (c : Catalog) (n : String) (s : Replica) : Prop :=
  ∃ k, c.canonical? n = some k ∧ c.Holds k s

theorem reads_iff (hn : c.canonical? n = some k) : c.Reads n s ↔ c.Holds k s := by
  constructor
  · rintro ⟨j, hj, hs⟩
    obtain rfl : j = k := Option.some_inj.mp (hj.symm.trans hn)
    exact hs
  · exact fun hs => ⟨k, hn, hs⟩

theorem not_reads (hn : c.canonical? n = none) : ¬ c.Reads n s := by
  rintro ⟨k, hk, -⟩
  rw [hn] at hk
  cases hk

/-- A name is available if something can be read under it. -/
theorem isAvailable_iff_reads : c.isAvailable n = true ↔ ∃ s, c.Reads n s := by
  unfold isAvailable datum?
  cases hn : c.canonical? n with
  | none => exact iff_of_false nofun fun ⟨s, hs⟩ => not_reads hn hs
  | some k =>
    simp only [reads_iff hn, ← hasAvailable_iff]
    show (c.data.get? k).any _ = true ↔ _
    unfold HasAvailable
    cases c.data.get? k <;> simp

/-- A replica that is added under a name can be read under it. -/
theorem reads_addReplica (hc : c.Listed) :
    (c.addReplica n r).catalog.Reads n s ↔ s = r ∨ c.Reads n s := by
  obtain ⟨k, hk⟩ := exists_canonical?_addReplica c n r
  have hold : c.Holds k s ↔ c.Reads n s := by
    cases hn : c.canonical? n with
    | some j =>
      obtain rfl : j = k := Option.some_inj.mp ((canonical?_addReplica hn n r).symm.trans hk)
      exact (reads_iff hn).symm
    | none =>
      -- the name is registered for a new datum, which nothing was filed under
      have hself : k = n := by
        rw [addReplica, canonical?_congr (names_insertReplica _ _ r), canonical?_register_self,
          canonicalOf, hn] at hk
        exact (Option.some_inj.mp hk).symm
      refine iff_of_false ?_ (not_reads hn)
      rintro ⟨d, hd, -⟩
      obtain ⟨j, hj⟩ := hc.registered (hself ▸ hd)
      rw [canonical?, hj] at hn
      cases hn
  rw [reads_iff hk, holds_addReplica hc, hold, hk, and_iff_left rfl, or_comm]

/-- Under a name that is linked can be read what can be read under the other one. -/
theorem reads_link {other : String} {l : Linked} (h : c.link? n other = some l) :
    l.catalog.Reads n s ↔ c.Reads other s := by
  obtain ⟨k, hk, rfl⟩ := Option.map_eq_some_iff.mp h
  have hn : (update { c with names := c.names.insert n k } k (·.addName n)).canonical? n =
      some k := SortedMap.get?_insert_self _ _ _
  rw [reads_iff hn, reads_iff hk]
  unfold Holds
  rw [get?_update, if_pos rfl]
  cases c.data.get? k with
  | none => exact .rfl
  | some d =>
    simp only [Option.map_some, Option.some.injEq, exists_eq_left', (d.similar_addName n).replicas]

end Catalog

/-! ## Sources -/

/-- The other name that a source gives, if it is registered. -/
def RemoteSource.known? (c : Catalog) : RemoteSource → Option String
  | .localAlias name => if c.isRegistered name then some name else none
  | .location .. => none

/-- The replica that a source gives. -/
def RemoteSource.replica? : RemoteSource → Option Replica
  | .location r _ => some r
  | .localAlias _ => none

namespace RemoteData

/-- The other names that are registered, in the order of the sources. -/
def known (r : RemoteData) (c : Catalog) : List String := r.sources.filterMap (·.known? c)

/-- The replicas, in the order of the sources. -/
def replicas (r : RemoteData) : List Replica := r.sources.filterMap (·.replica?)

/-- The name under which could be read before what can be read under the name afterwards: the name
itself if it was registered, or else the last of the other names. -/
def origin (r : RemoteData) (c : Catalog) : String :=
  if c.isRegistered r.name then r.name else (r.known c).getLast?.getD r.name

/-- The answer to the request: how many sources there are, if there is any. -/
def verdict (r : RemoteData) (c : Catalog) : Reply :=
  if (r.known c).length + r.replicas.length = 0 then .refused (.noDataSources r.name)
  else .number ((r.known c).length + r.replicas.length)

end RemoteData

/-- A datum was taken over between two worlds, and the request for it was answered last. -/
structure World.TakesOver (w : World) (token : Nat) (r : RemoteData) (w' : World) : Prop where
  /-- The answer counts the sources. -/
  answer : w'.log.head? = some (.replied token (r.verdict w.catalog))
  /-- Under the name can be read what could be read under its origin, and the replicas. -/
  reads : ∀ s, w'.catalog.Reads r.name s ↔
    s ∈ r.replicas ∨ w.catalog.Reads (r.origin w.catalog) s
  /-- It is available if there is a replica among the sources, or its origin was available. -/
  available : w'.catalog.isAvailable r.name = true ↔
    r.replicas ≠ [] ∨ w.catalog.isAvailable (r.origin w.catalog) = true

namespace Import

variable {c : Catalog} {name : String} {rest : List RemoteSource} {found : Nat}
  {other : Option String} {replicas : List Replica} {next : Resume}

/-- What is left of a datum that is taken over once all sources were looked at. -/
def gathered (i : Import) (c : Catalog) : Import :=
  { i with
    sources := []
    found := i.found + (i.sources.filterMap (·.known? c)).length
    otherName := (i.sources.filterMap (·.known? c)).getLast?.or i.otherName
    replicas := i.replicas ++ i.sources.filterMap (·.replica?) }

@[simp] theorem gathered_nil :
    gathered ⟨name, [], found, other, replicas, next⟩ c =
      ⟨name, [], found, other, replicas, next⟩ := by
  simp [gathered]

/-- A name that is registered counts, and is remembered unless another one follows. -/
theorem gathered_known {n : String} (h : c.isRegistered n = true) :
    gathered ⟨name, .localAlias n :: rest, found, other, replicas, next⟩ c =
      gathered ⟨name, rest, found + 1, some n, replicas, next⟩ c := by
  have hknown : RemoteSource.known? c (.localAlias n) = some n := if_pos h
  unfold gathered
  rw [List.filterMap_cons_some hknown, List.filterMap_cons_none rfl, List.length_cons,
    List.getLast?_cons]
  congr 1
  · exact Nat.add_right_comm found _ 1
  · cases (rest.filterMap (·.known? c)).getLast? <;> rfl

/-- A name that is not registered is passed over. -/
theorem gathered_unknown {n : String} (h : c.isRegistered n = false) :
    gathered ⟨name, .localAlias n :: rest, found, other, replicas, next⟩ c =
      gathered ⟨name, rest, found, other, replicas, next⟩ c := by
  have hknown : RemoteSource.known? c (.localAlias n) = none := if_neg (Bool.eq_false_iff.mp h)
  unfold gathered
  rw [List.filterMap_cons_none hknown, List.filterMap_cons_none rfl]

/-- A replica is put by. -/
theorem gathered_location (r : Replica) (host : Option Offer) :
    gathered ⟨name, .location r host :: rest, found, other, replicas, next⟩ c =
      gathered ⟨name, rest, found, other, replicas ++ [r], next⟩ c := by
  have hreplica : RemoteSource.replica? (.location r host) = some r := rfl
  unfold gathered
  rw [List.filterMap_cons_none rfl, List.filterMap_cons_some hreplica, List.append_assoc,
    List.singleton_append]

/-- The answer once all sources were looked at. -/
def verdict (i : Import) : Reply :=
  if i.found + i.replicas.length = 0 then .refused (.noDataSources i.name)
  else .number (i.found + i.replicas.length)

/-- The data once the name is linked, if it is new and another one was found. -/
def linked (i : Import) (c : Catalog) : Catalog :=
  (((if c.isRegistered i.name then none else i.otherName.bind (c.link? i.name)) :
    Option Catalog.Linked).map fun l => l.catalog).getD c

/-- The name behind which the datum is, once all sources were looked at. -/
def origin (i : Import) (c : Catalog) : String :=
  if c.isRegistered i.name then i.name else i.otherName.getD i.name

theorem listed_linked (i : Import) (hc : c.Listed) : (i.linked c).Listed := by
  unfold linked
  cases hl : (if c.isRegistered i.name then none else i.otherName.bind (c.link? i.name) :
    Option Catalog.Linked) with
  | none => exact hc
  | some l =>
    split at hl
    · cases hl
    · obtain ⟨n, -, hn⟩ := Option.bind_eq_some_iff.mp hl
      exact (Catalog.announces_link hn).listed hc

/-- Under the name can be read then what could be read under its origin. -/
theorem reads_linked (i : Import) (c : Catalog) (s : Replica) :
    (i.linked c).Reads i.name s ↔ c.Reads (i.origin c) s := by
  unfold linked origin
  by_cases hreg : c.isRegistered i.name = true
  · rw [if_pos hreg, if_pos hreg]
    rfl
  · rw [if_neg hreg, if_neg hreg]
    cases hother : i.otherName with
    | none => rfl
    | some n =>
      rw [Option.bind_some, Option.getD_some]
      cases hl : c.link? i.name n with
      | some l => exact Catalog.reads_link hl
      | none =>
        -- neither name is registered
        have hnew : c.canonical? i.name = none := SortedMap.contains_eq_false_iff.mp
          (Bool.eq_false_iff.mpr hreg)
        exact iff_of_false (Catalog.not_reads hnew)
          (Catalog.not_reads (Option.map_eq_none_iff.mp hl))

/-- What is found when a request begins is what its sources give. -/
theorem gathered_request (r : RemoteData) (c : Catalog) (next : Resume) :
    let i := gathered { name := r.name, sources := r.sources, resume := next } c
    i.verdict = r.verdict c ∧ i.origin c = r.origin c ∧ i.replicas = r.replicas := by
  simp [gathered, verdict, origin, RemoteData.verdict, RemoteData.origin, RemoteData.known,
    RemoteData.replicas]

end Import

namespace World

variable {w w' : World} {t : List Moment}

/-! ## Looking at the sources -/

/-- Where an item leads to low items only, the data are as it leaves them. -/
theorem Completes.single_low {i : Item} (h : w.Completes [i] t w') (hcalm : w.disturbances = [])
    (hl : ∀ j ∈ (w.carryOut i).2, j.stage < 4) :
    w'.disturbances = [] ∧ w'.catalog = (w.carryOut i).1.catalog := by
  obtain ⟨s, h, -⟩ := h.of_single
  obtain ⟨hcalm', hcatalog, -⟩ := h.low (calm_carryOut hcalm i) hl
  exact ⟨hcalm', hcatalog⟩

theorem stage_addWorker_lt (w : World) (key : WorkerKey) (offered : Capacity) (adaptor : Adaptor) :
    ∀ j ∈ (w.addWorker key offered adaptor).2.2, j.stage < 4 := by
  simp [addWorker, Item.stage]

/-- Low items are carried out and leave the data as they are. -/
theorem exists_completes_low {l : List Item} (hl : ∀ j ∈ l, j.stage < 4)
    (hcalm : w.disturbances = []) :
    ∃ t w', w.Completes l t w' ∧ w'.disturbances = [] ∧ w'.catalog = w.catalog := by
  obtain ⟨t, w', h, -⟩ := exists_completes_of_forall (fun j hj v hv =>
    exists_completes_of_stage (Nat.lt_trans (hl j hj) (by decide)) hv) hcalm
  obtain ⟨hcalm', hcatalog, -⟩ := h.low hcalm hl
  exact ⟨t, w', h, hcalm', hcatalog⟩

/-- The host of a replica is registered if need be, and then the next source is looked at. -/
theorem takeOver_location (w : World) (name : String) (r : Replica) (host : Option Offer)
    (rest : List RemoteSource) (found : Nat) (other : Option String) (replicas : List Replica)
    (next : Resume) :
    w.carryOut (.takeOver ⟨name, .location r host :: rest, found, other, replicas, next⟩) =
        (w, [.takeOver ⟨name, rest, found, other, replicas ++ [r], next⟩]) ∨
      ∃ o : Offer,
        w.carryOut (.takeOver ⟨name, .location r host :: rest, found, other, replicas, next⟩) =
          ((w.addWorker (.permanent o.name) o.description o.adaptor).2.1,
            (w.addWorker (.permanent o.name) o.description o.adaptor).2.2 ++
              [.takeOver ⟨name, rest, found, other, replicas ++ [r], next⟩]) := by
  dsimp only [carryOut, takeOver]
  cases host with
  | none => exact .inl rfl
  | some o =>
    dsimp only
    split
    · exact .inl rfl
    · exact .inr ⟨o, rfl⟩

/-- All sources are looked at, and whatever offers, passes and news preserve is preserved. -/
theorem exists_gathered_of {P : World → Prop} {c : Catalog}
    (calm : ∀ {v}, P v → v.disturbances = []) (data : ∀ {v}, P v → v.catalog = c)
    (offer : ∀ {v} (o : Offer), P v →
      P (v.addWorker (.permanent o.name) o.description o.adaptor).2.1)
    (low : ∀ {v v' l t}, P v → (∀ j ∈ l, j.stage < 4) → v.Completes l t v' → P v')
    (i : Import) (hw : P w) :
    ∃ v, P v ∧ ∀ t w', v.Completes [.takeOver (i.gathered c)] t w' →
      ∃ t', w.Completes [.takeOver i] t' w' := by
  obtain ⟨name, sources, found, other, replicas, next⟩ := i
  induction sources generalizing w found other replicas with
  | nil => exact ⟨w, hw, fun t w' h => ⟨t, Import.gathered_nil (c := c) ▸ h⟩⟩
  | cons source rest ih =>
    cases source with
    | localAlias n =>
      cases hreg : w.catalog.isRegistered n with
      | true =>
        obtain ⟨v, hv, hgo⟩ := ih hw (found + 1) (some n) replicas
        refine ⟨v, hv, fun t w' h => ?_⟩
        obtain ⟨t', h'⟩ := hgo t w' (Import.gathered_known (data hw ▸ hreg) ▸ h)
        exact ⟨_, Completes.single_of_eq (if_pos hreg) h'⟩
      | false =>
        obtain ⟨v, hv, hgo⟩ := ih hw found other replicas
        refine ⟨v, hv, fun t w' h => ?_⟩
        obtain ⟨t', h'⟩ := hgo t w' (Import.gathered_unknown (data hw ▸ hreg) ▸ h)
        exact ⟨_, Completes.single_of_eq (if_neg (Bool.eq_false_iff.mp hreg)) h'⟩
    | location r host =>
      rcases takeOver_location w name r host rest found other replicas next with
        hitem | ⟨o, hitem⟩
      · obtain ⟨v, hv, hgo⟩ := ih hw found other (replicas ++ [r])
        refine ⟨v, hv, fun t w' h => ?_⟩
        obtain ⟨t', h'⟩ := hgo t w' (Import.gathered_location r host ▸ h)
        exact ⟨_, Completes.single_of_eq hitem h'⟩
      · have hlow := w.stage_addWorker_lt (.permanent o.name) o.description o.adaptor
        obtain ⟨t₁, v₁, h₁, -⟩ := exists_completes_low hlow (calm (offer o hw))
        obtain ⟨v, hv, hgo⟩ := ih (low (offer o hw) hlow h₁) found other (replicas ++ [r])
        refine ⟨v, hv, fun t w' h => ?_⟩
        obtain ⟨t', h'⟩ := hgo t w' (Import.gathered_location r host ▸ h)
        exact ⟨_, Completes.single_of_eq hitem (h₁.append h')⟩

/-- All sources are looked at, and the data are as they were. -/
theorem exists_gathered (i : Import) (hcalm : w.disturbances = []) :
    ∃ v : World, v.disturbances = [] ∧ v.catalog = w.catalog ∧ ∀ t w',
      v.Completes [.takeOver (i.gathered w.catalog)] t w' →
        ∃ t', w.Completes [.takeOver i] t' w' := by
  obtain ⟨v, ⟨hv, hcatalog⟩, hgo⟩ := exists_gathered_of
    (P := fun v => v.disturbances = [] ∧ v.catalog = w.catalog) (fun hv => hv.1) (fun hv => hv.2)
    (fun _ hv => hv) (fun hv hl h => ⟨(h.low hv.1 hl).1, (h.low hv.1 hl).2.1.trans hv.2⟩) i
    ⟨hcalm, rfl⟩
  exact ⟨v, hv, hcatalog, hgo⟩

/-! ## Recording what was found -/

/-- Replicas are added under a name one after another. -/
theorem exists_completes_adding (n : String) (l : List Replica) (hcalm : w.disturbances = [])
    (hlisted : w.catalog.Listed) :
    ∃ t w', w.Completes (l.map fun r => .addReplica n r none) t w' ∧
      ∀ s, w'.catalog.Reads n s ↔ s ∈ l ∨ w.catalog.Reads n s := by
  induction l generalizing w with
  | nil => exact ⟨[], w, .nil w, fun s => by simp⟩
  | cons r l ih =>
    obtain ⟨t₁, v, h₁, -⟩ := exists_completes_of_stage (w := w) (i := .addReplica n r none)
      (show 4 < 14 by decide) hcalm
    have hlow : ∀ j ∈ (w.carryOut (.addReplica n r none)).2, j.stage < 4 := by
      intro j hj
      rcases List.mem_append.mp hj with hj | hj
      · exact stage_announcements _ _ j hj
      · cases hj
    obtain ⟨hv, hcatalog⟩ := h₁.single_low hcalm hlow
    have hcatalog : v.catalog = (w.catalog.addReplica n r).catalog := hcatalog
    have hvlisted : v.catalog.Listed := by
      rw [hcatalog]
      exact (Catalog.announces_addReplica w.catalog n r).listed hlisted
    obtain ⟨t₂, w', h₂, hreads⟩ := ih hv hvlisted
    refine ⟨_, w', h₁.append h₂, fun s => ?_⟩
    rw [hreads, hcatalog, Catalog.reads_addReplica hlisted, List.mem_cons]
    tauto

/-- Once all sources were looked at the name is linked, and that is announced; the replicas are to
be added then. -/
theorem takeOver_nil (w : World) (name : String) (found : Nat) (other : Option String)
    (replicas : List Replica) (next : Resume) : ∃ names : List String,
      w.carryOut (.takeOver ⟨name, [], found, other, replicas, next⟩) =
        ({ w with catalog := Import.linked ⟨name, [], found, other, replicas, next⟩ w.catalog },
          w.announcements names ++ replicas.map (fun r => .addReplica name r none) ++
            [.takenOver name (found + replicas.length) next]) := by
  dsimp only [carryOut, takeOver, Import.linked]
  split
  · next hl =>
    have hnone : w.announcements [] = [] := by simp [announcements]
    refine ⟨[], ?_⟩
    rw [hl, hnone]
    rfl
  · next linked hl =>
    refine ⟨linked.announced, ?_⟩
    rw [hl]
    rfl

/-- What was found is recorded, and the request is answered. -/
theorem exists_completes_last {i : Import} (hsources : i.sources = []) {token : Nat}
    (hnext : i.resume = .answer token) (hcalm : w.disturbances = [])
    (hlisted : w.catalog.Listed) :
    ∃ t w', w.Completes [.takeOver i] t w' ∧
      w'.log.head? = some (.replied token i.verdict) ∧
      ∀ s, w'.catalog.Reads i.name s ↔ s ∈ i.replicas ∨ w.catalog.Reads (i.origin w.catalog) s := by
  obtain ⟨name, sources, found, other, replicas, next⟩ := i
  dsimp only at hsources hnext
  subst hsources hnext
  obtain ⟨names, hitem⟩ := w.takeOver_nil name found other replicas (.answer token)
  obtain ⟨t₁, v₁, h₁, hv₁, hv₁catalog⟩ := exists_completes_low
    (w := { w with
      catalog := Import.linked ⟨name, [], found, other, replicas, .answer token⟩ w.catalog })
    (stage_announcements w names) hcalm
  have hv₁listed : v₁.catalog.Listed := hv₁catalog ▸ Import.listed_linked _ hlisted
  obtain ⟨t₂, v₂, h₂, hreads⟩ := exists_completes_adding name replicas hv₁ hv₁listed
  have hanswer : v₂.carryOut (.takenOver name (found + replicas.length) (.answer token)) =
      (v₂, [.reply token (Import.verdict ⟨name, [], found, other, replicas, .answer token⟩)]) := by
    dsimp only [carryOut, takenOver, Import.verdict]
    split <;> rfl
  have h₃ := Completes.single_of_eq hanswer (Completes.single (.nil _))
  refine ⟨_, _, Completes.single_of_eq hitem ((h₁.append h₂).append h₃), rfl, fun s => ?_⟩
  show v₂.catalog.Reads name s ↔ _
  rw [hreads, hv₁catalog, Import.reads_linked]

end World

namespace Machine

variable {rule : Conduct} {policy : Policy} {localNodes : List String} {withholds : Bool}
  {limit : Nat} {disturbances : List Disturbance} {t₀ : List Moment} {w : World}

/-- In every state of a grid with an agent, a request to take a datum over returns, if nobody
answers meanwhile and nothing disturbs the pool, and then the datum was taken over. -/
theorem Course.importsData
    (h : Course rule { World.fresh policy localNodes withholds limit with disturbances } t₀ ⟨w, []⟩)
    (hcalm : w.disturbances = []) (hagent : w.agent.isSome = true) (token : Nat)
    (r : RemoteData) :
    ∃ t w', (asked w token (.importData r)).Returns t w' ∧ w.TakesOver token r w' := by
  obtain ⟨v, hv, hcatalog, hgo⟩ := World.exists_gathered
    { name := r.name, sources := r.sources, resume := .answer token } hcalm
  obtain ⟨hverdict, horigin, hreplicas⟩ := Import.gathered_request r w.catalog (.answer token)
  obtain ⟨s, w', hlast, hanswer, hreads⟩ := World.exists_completes_last
    (i := Import.gathered { name := r.name, sources := r.sources, resume := .answer token }
      w.catalog) rfl rfl hv (hcatalog ▸ h.listed_marked.1)
  rw [hverdict] at hanswer
  rw [hcatalog, horigin, hreplicas] at hreads
  have hreads : ∀ s, w'.catalog.Reads r.name s ↔
      s ∈ r.replicas ∨ w.catalog.Reads (r.origin w.catalog) s := hreads
  have hsome : (∃ s, s ∈ r.replicas) ↔ r.replicas ≠ [] :=
    ⟨fun ⟨s, hs⟩ => List.ne_nil_of_mem hs, List.exists_mem_of_ne_nil _⟩
  obtain ⟨t, hall⟩ := hgo s w' hlast
  have hobey : w.carryOut (.obey token (.importData r)) =
      (w, [.takeOver { name := r.name, sources := r.sources, resume := .answer token }]) := by
    obtain ⟨sessions, hsessions⟩ := Option.isSome_iff_exists.mp hagent
    show w.withAgent token _ = _
    rw [World.withAgent, hsessions]
    rfl
  refine ⟨_, w', (World.Completes.single_of_eq hobey hall).advance [], hanswer, hreads, ?_⟩
  rw [Catalog.isAvailable_iff_reads, Catalog.isAvailable_iff_reads, exists_congr hreads, exists_or,
    hsome]

/-! ### A datum under a name that was registered before -/

/-- A datum is laid down under a name. -/
def warehousing : Machine :=
  asked (.fresh .fifo [] false 8) 0 (.addReplica "d" (.ownFile "h" "/d"))

/-- Another name is registered. -/
def reserving : Machine := asked (warehousing.advance 3).world 1 (.register "r")

/-- The datum is taken over under that name. -/
def adopting : Machine :=
  asked (reserving.advance 2).world 2 (.importData ⟨"r", [.localAlias "d"]⟩)

theorem course_reserving :
    Course (.quiet fun _ => True) { World.fresh .fifo [] false 8 with disturbances := [] }
      (moments 2 reserving ++ (moments 3 warehousing ++ []))
      ⟨(reserving.advance 2).world, []⟩ :=
  (Course.start.call 0 3 trivial (by decide +kernel)).call 1 2 trivial (by decide +kernel)

/-- The answer is that there was one source, which is available, and the name is not. -/
theorem exists_course_import_unavailable : ∃ t₀ w t w',
    Course (.quiet fun _ => True) { World.fresh .fifo [] false 8 with disturbances := [] } t₀
        ⟨w, []⟩ ∧
      (asked w 2 (.importData ⟨"r", [.localAlias "d"]⟩)).Returns t w' ∧
      w'.log.head? = some (.replied 2 (.number 1)) ∧
      w.catalog.isAvailable "d" = true ∧ w'.catalog.isAvailable "r" = false :=
  ⟨_, _, moments 5 adopting, (adopting.advance 5).world, course_reserving,
    returns_of_isEmpty (by decide +kernel) (by decide +kernel), by decide +kernel,
    by decide +kernel, by decide +kernel⟩

/-- Of two names the last one counts for a new name, although nothing can be read under it, and the
answer counts both. -/
theorem importsData_reserving :
    let w := (reserving.advance 2).world
    let r : RemoteData := ⟨"s", [.localAlias "d", .localAlias "r"]⟩
    r.origin w.catalog = "r" ∧ r.verdict w.catalog = .number 2 ∧
      ∃ t w', (asked w 2 (.importData r)).Returns t w' ∧ w.TakesOver 2 r w' :=
  ⟨by decide +kernel, by decide +kernel,
    Course.importsData course_reserving (by decide +kernel) (by decide +kernel) 2 _⟩

end Machine

end TaskGrid
