import TaskGrid.Proofs.Announcements

/-!
# What items do to the records of copies

Seen from outside, three things happen to a copy.  It is started, or joined; somebody attaches to
it; and it ends.  The answers to the commands say which of these happened (`Moment.copyStep?`), and
the records of the catalog change accordingly, whatever else the catalog is used for.

* `Catalog.SameCopies`: operations that are not about copies leave the records.
* `Catalog.CopyMove`, `World.copyMove_carryOut`: what a step does to the records.
-/

namespace TaskGrid

/-! ## Steps -/

/-- What the answer to a command says of a copy. -/
inductive CopyStep where
  /-- It was started or joined, perhaps by somebody who listens to it. -/
  | started (h : CopyHandle) (listener : Option String)
  /-- Somebody attached to it. -/
  | attached (id : Nat) (listener : String)
  /-- It ended. -/
  | ended (id : Nat) (outcome : CopyOutcome)

namespace CopyStep

/-- The handle of a copy that begins. -/
def begun? : CopyStep → Option CopyHandle
  | started h _ => if h.isNew then some h else none
  | _ => none

/-- The copy that ends. -/
def ended? : CopyStep → Option Nat
  | ended id _ => some id
  | _ => none

/-- Who begins to listen to the copy of a number. -/
def listeners (id : Nat) : CopyStep → List String
  | started h listener => if h.id = id then listener.toList else []
  | attached i listener => if i = id then [listener] else []
  | ended _ _ => []

end CopyStep

/-- What the answer to a command says of a copy. -/
def Command.copyStep? : Command → Reply → Option CopyStep
  | .startCopy _ _ listener, .handle h => some (.started h listener)
  | .listenToCopy id _ listener, .flag true => some (.attached id listener)
  | .finishCopy id _, .replica (some r) => some (.ended id (.completed r))
  | .failCopy id _ reason, .flag true => some (.ended id (.failed reason))
  | _, _ => none

/-- The answer that an item writes. -/
def Item.reply? : Item → Option Reply
  | .note (.replied _ r) => some r
  | _ => none

/-- The answer that the last of some items writes. -/
def Item.lastReply? (l : List Item) : Option Reply := l.getLast?.bind reply?

@[simp] theorem Item.lastReply?_append_reply (l : List Item) (token : Nat) (r : Reply) :
    lastReply? (l ++ [reply token r]) = some r := by
  rw [lastReply?, List.getLast?_concat]
  rfl

namespace Moment

/-- The answer to the command of a moment. -/
def answer? (m : Moment) : Option Reply := Item.lastReply? (m.world.carryOut m.item).2

/-- What happens to a copy at a moment, as the answer to the command says. -/
def copyStep? (m : Moment) : Option CopyStep :=
  match m.item with
  | .obey _ c => m.answer?.bind c.copyStep?
  | _ => none

end Moment

/-! ## Records -/

/-- The record of a copy to whose listeners some are added, if it is the one of a number. -/
def Copy.hear (id : Nat) (l : List String) (x : Copy) : Copy :=
  if x.id = id then { x with listeners := x.listeners ++ l } else x

@[simp] theorem Copy.id_hear (id : Nat) (l : List String) (x : Copy) : (x.hear id l).id = x.id := by
  unfold hear
  split <;> rfl

@[simp] theorem Copy.target_hear (id : Nat) (l : List String) (x : Copy) :
    (x.hear id l).target = x.target := by
  unfold hear
  split <;> rfl

theorem Copy.listeners_hear (id : Nat) (l : List String) (x : Copy) :
    (x.hear id l).listeners = x.listeners ++ if id = x.id then l else [] := by
  unfold hear
  split
  · next h => rw [if_pos h.symm]
  · next h => rw [if_neg (Ne.symm h), List.append_nil]

namespace Catalog

/-- The records of the copies of a datum in flight. -/
def copiesOf (c : Catalog) (k : String) : List Copy := ((c.data.get? k).map Datum.copies).getD []

/-- Two catalogs with the same records of copies. -/
structure SameCopies (c c' : Catalog) : Prop where
  /-- The same copies are in flight. -/
  copiesOf : ∀ k, c'.copiesOf k = c.copiesOf k
  /-- The same number is next. -/
  lastCopy : c'.lastCopy = c.lastCopy

variable {c c' c'' : Catalog}

theorem SameCopies.refl (c : Catalog) : c.SameCopies c := ⟨fun _ => rfl, rfl⟩

theorem SameCopies.trans (h : c.SameCopies c') (h' : c'.SameCopies c'') : c.SameCopies c'' :=
  ⟨fun k => (h'.copiesOf k).trans (h.copiesOf k), h'.lastCopy.trans h.lastCopy⟩

theorem sameCopies_of_data (hd : c'.data = c.data) (hl : c'.lastCopy = c.lastCopy) :
    c.SameCopies c' := ⟨fun k => by rw [Catalog.copiesOf, hd, Catalog.copiesOf], hl⟩

theorem copiesOf_of_get? {k : String} {d : Datum} (h : c.data.get? k = some d) :
    c.copiesOf k = d.copies := by
  rw [copiesOf, h]
  rfl

/-- One datum changes. -/
theorem copiesOf_update {k : String} {d : Datum} (hd : c.data.get? k = some d) (f : Datum → Datum)
    (j : String) :
    (c.update k f).copiesOf j = if j = k then (f d).copies else c.copiesOf j := by
  unfold copiesOf
  rw [get?_update, hd]
  split <;> rfl

theorem sameCopies_update (c : Catalog) (k : String) {f : Datum → Datum}
    (hf : ∀ d, (f d).copies = d.copies) : c.SameCopies (c.update k f) := by
  refine ⟨fun j => ?_, rfl⟩
  unfold Catalog.copiesOf
  rw [get?_update]
  split
  · next hj =>
    rw [hj, Option.map_map]
    exact congrArg (fun o => Option.getD o []) (Option.map_congr fun d _ => hf d)
  · rfl

theorem sameCopies_register (hc : c.Listed) (name : String) : c.SameCopies (c.register name) := by
  unfold register
  split
  · exact .refl c
  · next hreg =>
    refine ⟨fun k => ?_, rfl⟩
    unfold Catalog.copiesOf
    rw [SortedMap.get?_insert]
    split
    · next hk =>
      -- no datum is filed under a name that is not registered
      subst hk
      cases hd : c.data.get? k with
      | none => rfl
      | some d =>
        obtain ⟨j, hj⟩ := hc.registered hd
        exact absurd (SortedMap.contains_iff.mpr ⟨j, hj⟩) hreg
    · rfl

theorem sameCopies_link {name existing : String} {l : Linked} (h : c.link? name existing = some l) :
    c.SameCopies l.catalog := by
  obtain ⟨k, -, rfl⟩ := Option.map_eq_some_iff.mp h
  have hnames : c.SameCopies { c with names := c.names.insert name k } :=
    sameCopies_of_data rfl rfl
  refine hnames.trans (sameCopies_update _ _ fun d => ?_)
  unfold Datum.addName
  split <;> rfl

theorem sameCopies_insertReplica (c : Catalog) (k : String) (r : Replica) :
    c.SameCopies (c.insertReplica k r).catalog := by
  unfold insertReplica
  split
  · exact .refl c
  · split
    · exact .refl c
    · have hindex : c.SameCopies (c.index k r) :=
        sameCopies_of_data (data_index k r) (by cases r <;> rfl)
      exact hindex.trans (sameCopies_update _ _ fun _ => rfl)

theorem sameCopies_addReplica (hc : c.Listed) (name : String) (r : Replica) :
    c.SameCopies (c.addReplica name r).catalog :=
  (sameCopies_register hc name).trans (sameCopies_insertReplica _ _ r)

theorem sameCopies_removeHost (c : Catalog) (name host : String) :
    c.SameCopies (c.removeHost name host).2 := by
  unfold removeHost
  split
  · exact .refl c
  · split
    · exact .refl c
    · have hhosts (hosts : SortedMap String HostEntry) : c.SameCopies { c with hosts } :=
        sameCopies_of_data rfl rfl
      dsimp only
      exact (hhosts _).trans (sameCopies_update _ _ fun _ => rfl)

theorem sameCopies_departHost (c : Catalog) (host : String) :
    c.SameCopies (c.departHost host).2 :=
  departHost_preserves (fun name hb => hb.trans (sameCopies_removeHost _ name host))
    (fun hb => hb.trans (sameCopies_of_data rfl rfl)) (.refl c)

theorem sameCopies_markObsolete {name : String} (h : c.markObsolete? name = some c') :
    c.SameCopies c' := by
  obtain ⟨k, -, h⟩ := Option.bind_eq_some_iff.mp h
  obtain ⟨d, -, rfl⟩ := Option.map_eq_some_iff.mp h
  exact List.foldlRecOn (motive := fun b : Catalog => c.SameCopies b) (c.holders d).toList _
    (sameCopies_update c k fun _ => rfl) fun b hb host _ =>
      hb.trans (sameCopies_of_data rfl rfl)

/-- What items do to a catalog of their own accord leaves the copies in flight. -/
theorem Edits.sameCopies (h : c.Edits c') (hc : c.Listed) : c'.Listed ∧ c.SameCopies c' := by
  induction h with
  | refl => exact ⟨hc, .refl c⟩
  | tail _ hedit ih =>
    obtain ⟨hlisted, hsame⟩ := ih
    cases hedit with
    | departHost host =>
      exact ⟨(announces_departHost (l := []) _ host).listed hlisted,
        hsame.trans (sameCopies_departHost _ host)⟩
    | addReplica name r =>
      exact ⟨(announces_addReplica _ name r).listed hlisted,
        hsame.trans (sameCopies_addReplica hlisted name r)⟩
    | link linked _ =>
      exact ⟨(announces_link linked).listed hlisted, hsame.trans (sameCopies_link linked)⟩

/-! ## The operations on copies -/

/-- What an operation on copies does to the records, and what it says about it. -/
inductive CopyMove (c : Catalog) : Option CopyStep → Catalog → Prop where
  /-- It does nothing. -/
  | other {c' : Catalog} (same : c.SameCopies c') : CopyMove c none c'
  /-- A copy begins, to a target to which none is in flight. -/
  | begun {k : String} {target : Replica} {listener : Option String} {c' : Catalog}
      (fresh : ∀ x ∈ c.copiesOf k, x.target ≠ target)
      (copiesOf : ∀ j, c'.copiesOf j = if j = k then
        c.copiesOf k ++ [⟨c.lastCopy + 1, target, listener.toList⟩] else c.copiesOf j)
      (lastCopy : c'.lastCopy = c.lastCopy + 1) :
    CopyMove c (some (.started ⟨c.lastCopy + 1, k, target, true⟩ listener)) c'
  /-- A copy in flight is joined, or somebody attaches to it. -/
  | heard {k : String} {x : Copy} {l : List String} {s : CopyStep} {c' : Catalog}
      (mem : x ∈ c.copiesOf k)
      (copiesOf : ∀ j, c'.copiesOf j =
        if j = k then (c.copiesOf k).map (Copy.hear x.id l) else c.copiesOf j)
      (lastCopy : c'.lastCopy = c.lastCopy) (begun? : s.begun? = none) (ended? : s.ended? = none)
      (listeners : ∀ id, s.listeners id = if x.id = id then l else []) : CopyMove c (some s) c'
  /-- A copy in flight ends. -/
  | ended {k : String} {x : Copy} {outcome : CopyOutcome} {c' : Catalog} (mem : x ∈ c.copiesOf k)
      (copiesOf : ∀ j, c'.copiesOf j =
        if j = k then (c.copiesOf k).filter (fun y => y.id ≠ x.id) else c.copiesOf j)
      (lastCopy : c'.lastCopy = c.lastCopy) : CopyMove c (some (.ended x.id outcome)) c'

/-- Starting a copy begins one, unless one to the target is in flight, which is then joined. -/
theorem startCopy?_eq_some {name : String} {target : Replica} {listener : Option String}
    {h : CopyHandle} (hs : c.startCopy? name target listener = some (h, c')) :
    c.CopyMove (some (.started h listener)) c' ∧ h.target = target ∧
      c.canonical? name = some h.data ∧ (∃ d, c.data.get? h.data = some d) ∧
      (h.isNew = true → h.id = c.lastCopy + 1 ∧ ∀ x ∈ c.copiesOf h.data, x.target ≠ target) ∧
      (h.isNew = false → ∃ x ∈ c.copiesOf h.data, x.target = target ∧ x.id = h.id) := by
  obtain ⟨k, hk, hs⟩ := Option.bind_eq_some_iff.mp hs
  obtain ⟨d, hd, hs⟩ := Option.map_eq_some_iff.mp hs
  have hcopies := copiesOf_of_get? hd
  split at hs
  · next x hx =>
    cases hs
    have hmem : x ∈ c.copiesOf k := hcopies ▸ List.mem_of_find?_eq_some hx
    have htarget : x.target = target :=
      of_decide_eq_true (List.find?_some (p := fun x : Copy => decide (x.target = target)) hx)
    refine ⟨.heard (l := listener.toList) hmem (fun j => ?_) rfl rfl rfl (fun id => rfl), rfl, hk,
      ⟨d, hd⟩, fun hnew => (by cases hnew), fun _ => ⟨x, hmem, htarget, rfl⟩⟩
    rw [copiesOf_update hd, hcopies]
    rfl
  · next hnone =>
    cases hs
    have hfresh : ∀ x ∈ c.copiesOf k, x.target ≠ target := fun x hx he =>
      List.find?_eq_none.mp hnone x (hcopies ▸ hx) (decide_eq_true he)
    refine ⟨.begun hfresh (fun j => ?_) rfl, rfl, hk, ⟨d, hd⟩, fun _ => ⟨rfl, hfresh⟩,
      fun hnew => (by cases hnew)⟩
    rw [copiesOf_update (c := { c with lastCopy := c.lastCopy + 1 }) hd, hcopies]
    rfl

/-- A registered datum can be copied anywhere. -/
theorem exists_startCopy? {name : String} {d : Datum} (h : c.datum? name = some d)
    (target : Replica) (listener : Option String) :
    ∃ r, c.startCopy? name target listener = some r := by
  obtain ⟨k, hk, hd⟩ := Option.bind_eq_some_iff.mp h
  unfold startCopy?
  rw [hk, Option.bind_some, hd, Option.map_some]
  exact ⟨_, rfl⟩

/-- Who attaches is accepted where the copy is in flight. -/
theorem listenToCopy?_eq_some {data listener : String} {id : Nat}
    (h : c.listenToCopy? data id listener = some c') :
    c.CopyMove (some (.attached id listener)) c' := by
  obtain ⟨k, hk, h⟩ := Option.bind_eq_some_iff.mp h
  obtain ⟨d, hd, h⟩ := Option.bind_eq_some_iff.mp h
  have hcopies := copiesOf_of_get? hd
  split at h
  · next hany =>
    cases h
    obtain ⟨x, hx, hid⟩ := List.any_eq_true.mp hany
    obtain rfl : x.id = id := of_decide_eq_true hid
    refine .heard (l := [listener]) (hcopies ▸ hx) (fun j => ?_) rfl rfl rfl fun id => rfl
    rw [copiesOf_update hd, hcopies]
    rfl
  · cases h

/-- A copy ends where it is in flight. -/
theorem retireCopy?_eq_some {data : String} {id : Nat} {e : CopyEnded}
    (h : c.retireCopy? data id = some e) :
    c.canonical? data = some e.canonical ∧ e.copy ∈ c.copiesOf e.canonical ∧ e.copy.id = id ∧
      (∀ j, e.catalog.copiesOf j = if j = e.canonical then
        (c.copiesOf e.canonical).filter (fun y => y.id ≠ id) else c.copiesOf j) ∧
      e.catalog.lastCopy = c.lastCopy ∧ e.catalog.names = c.names ∧
      ∃ d, e.catalog.data.get? e.canonical = some d := by
  obtain ⟨k, hk, h⟩ := Option.bind_eq_some_iff.mp h
  obtain ⟨d, hd, h⟩ := Option.bind_eq_some_iff.mp h
  obtain ⟨x, hx, rfl⟩ := Option.map_eq_some_iff.mp h
  have hcopies := copiesOf_of_get? hd
  refine ⟨hk, hcopies ▸ List.mem_of_find?_eq_some hx,
    of_decide_eq_true (List.find?_some (p := fun x : Copy => decide (x.id = id)) hx),
    fun j => ?_, rfl, rfl, ?_⟩
  · rw [copiesOf_update hd, hcopies]
  · rw [get?_update, if_pos rfl, hd]
    exact ⟨_, rfl⟩

theorem retireCopy?_eq_none {data : String} {id : Nat}
    (h : ∀ k, c.canonical? data = some k → ∀ x ∈ c.copiesOf k, x.id ≠ id) :
    c.retireCopy? data id = none := by
  cases he : c.retireCopy? data id with
  | none => rfl
  | some e =>
    obtain ⟨hk, hmem, hid, -⟩ := retireCopy?_eq_some he
    exact absurd hid (h e.canonical hk e.copy hmem)

/-- A copy in flight can be ended under every name of the datum. -/
theorem exists_retireCopy? {name : String} {d : Datum} {x : Copy} (h : c.datum? name = some d)
    (hx : x ∈ d.copies) : ∃ e, c.retireCopy? name x.id = some e := by
  obtain ⟨k, hk, hd⟩ := Option.bind_eq_some_iff.mp h
  obtain ⟨y, hy⟩ := Option.isSome_iff_exists.mp
    (List.find?_isSome (p := fun y : Copy => decide (y.id = x.id)).mpr ⟨x, hx, decide_eq_true rfl⟩)
  unfold retireCopy?
  rw [hk, Option.bind_some, hd, Option.bind_some, hy, Option.map_some]
  exact ⟨_, rfl⟩

/-- The copy that finished is where it was to land. -/
theorem finishCopy?_eq_some {data : String} {id : Nat} {e : CopyEnded}
    (h : c.finishCopy? data id = some e) :
    (∃ e', c.retireCopy? data id = some e' ∧ e'.canonical = e.canonical ∧ e'.copy = e.copy ∧
      e'.catalog.SameCopies e.catalog) ∧
    ∃ d, e.catalog.datum? data = some d ∧ e.copy.target ∈ d.replicas := by
  obtain ⟨e', he', rfl⟩ := Option.map_eq_some_iff.mp h
  obtain ⟨hk, -, -, -, -, hnames, d, hd⟩ := retireCopy?_eq_some he'
  refine ⟨⟨e', he', rfl, rfl, sameCopies_insertReplica _ _ _⟩, ?_⟩
  have hlanded : ∃ d, (e'.catalog.insertReplica e'.canonical e'.copy.target).catalog.data.get?
      e'.canonical = some d ∧ e'.copy.target ∈ d.replicas := by
    unfold insertReplica
    rw [hd]
    dsimp only
    split
    · next hmem => exact ⟨d, hd, hmem⟩
    · refine ⟨d.addReplica e'.copy.target, ?_, SortedSet.mem_insert.mpr (.inl rfl)⟩
      rw [get?_update, if_pos rfl, data_index, hd, Option.map_some]
  have hcanonical : (e'.catalog.insertReplica e'.canonical e'.copy.target).catalog.canonical? data =
      some e'.canonical := by
    have hins : (e'.catalog.insertReplica e'.canonical e'.copy.target).catalog.names =
        e'.catalog.names := by
      unfold insertReplica
      rw [hd]
      dsimp only
      split
      · rfl
      · exact names_index e'.canonical e'.copy.target
    rw [canonical?, hins, hnames]
    exact hk
  obtain ⟨f, hf, hmem⟩ := hlanded
  exact ⟨f, Option.bind_eq_some_iff.mpr ⟨_, hcanonical, hf⟩, hmem⟩

end Catalog

namespace World

variable {w : World}

/-! ## The commands about copies -/

theorem copyStep?_obey {token : Nat} {o : Command} {e : Effect}
    (h : w.obeyData token o = some e) :
    Moment.copyStep? ⟨w, .obey token o⟩ = (Item.lastReply? e.2).bind o.copyStep? := by
  rw [Moment.copyStep?, Moment.answer?]
  dsimp only [carryOut]
  rw [obey_of_obeyData h]

/-- Data are commanded, or nothing happens to a copy. -/
theorem copyStep?_of_edits {i : Item}
    (hi : ∀ token o, i = .obey token o → w.obeyData token o = none) :
    Moment.copyStep? ⟨w, i⟩ = none := by
  cases i with
  | obey token o =>
    have ho := hi token o rfl
    suffices hnone : ∀ r, o.copyStep? r = none by
      rw [Moment.copyStep?]
      dsimp only
      rw [show o.copyStep? = fun _ => none from funext hnone, Option.bind_fun_none]
    intro r
    cases o <;> first | rfl | cases ho
  | _ => rfl

theorem copyMove_startCopy (w : World) (token : Nat) (name : String) (target : Replica)
    (listener : Option String) :
    w.catalog.CopyMove ((Item.lastReply? (w.startCopy token name target listener).2).bind
      (Command.copyStep? (.startCopy name target listener)))
      (w.startCopy token name target listener).1.catalog := by
  unfold startCopy
  split
  · exact .other (.refl _)
  · next hs => exact (Catalog.startCopy?_eq_some hs).1

theorem copyMove_listenToCopy (w : World) (token id : Nat) (data listener : String) :
    w.catalog.CopyMove ((Item.lastReply? (w.listenToCopy token id data listener).2).bind
      (Command.copyStep? (.listenToCopy id data listener)))
      (w.listenToCopy token id data listener).1.catalog := by
  unfold listenToCopy
  split
  · exact .other (.refl _)
  · next hs => exact Catalog.listenToCopy?_eq_some hs

theorem catalog_endCopy (w : World) (e : Catalog.CopyEnded) (outcome : CopyOutcome) :
    (w.endCopy e outcome).1.catalog = e.catalog := by
  unfold endCopy
  exact catalog_noteAll _ _

theorem copyMove_finishCopy (w : World) (token id : Nat) (data : String) :
    w.catalog.CopyMove ((Item.lastReply? (w.finishCopy token id data).2).bind
      (Command.copyStep? (.finishCopy id data))) (w.finishCopy token id data).1.catalog := by
  unfold finishCopy
  split
  · exact .other (.refl _)
  · next e he =>
    obtain ⟨⟨e', he', hk, hx, hsame⟩, -⟩ := Catalog.finishCopy?_eq_some he
    obtain ⟨-, hmem, rfl, hcopies, hlast, -⟩ := Catalog.retireCopy?_eq_some he'
    dsimp only
    rw [Item.lastReply?_append_reply, catalog_endCopy]
    exact .ended hmem (fun j => (hsame.copiesOf j).trans (hcopies j)) (hsame.lastCopy.trans hlast)

theorem copyMove_failCopy (w : World) (token id : Nat) (data reason : String) :
    w.catalog.CopyMove ((Item.lastReply? (w.failCopy token id data reason).2).bind
      (Command.copyStep? (.failCopy id data reason)))
      (w.failCopy token id data reason).1.catalog := by
  unfold failCopy
  split
  · exact .other (.refl _)
  · next e he =>
    obtain ⟨-, hmem, rfl, hcopies, hlast, -⟩ := Catalog.retireCopy?_eq_some he
    dsimp only
    rw [Item.lastReply?_append_reply, catalog_endCopy]
    exact .ended hmem hcopies hlast

theorem copyMove_obeyData {token : Nat} {o : Command} {e : Effect} (hc : w.catalog.Listed)
    (h : w.obeyData token o = some e) :
    w.catalog.CopyMove (Moment.copyStep? ⟨w, .obey token o⟩) e.1.catalog := by
  rw [copyStep?_obey h]
  -- a command that is not about copies takes no step
  have hother (hno : ∀ r, o.copyStep? r = none) (hsame : w.catalog.SameCopies e.1.catalog) :
      w.catalog.CopyMove ((Item.lastReply? e.2).bind o.copyStep?) e.1.catalog := by
    rw [show o.copyStep? = fun _ => none from funext hno, Option.bind_fun_none]
    exact .other hsame
  have hupdate (name : String) {f : Datum → Datum} (hf : ∀ d, (f d).copies = d.copies) :
      w.catalog.SameCopies
        ((w.catalog.register name).update (w.catalog.canonicalOf name) f) :=
    (Catalog.sameCopies_register hc name).trans (Catalog.sameCopies_update _ _ hf)
  cases o <;> simp only [obeyData, Option.some.injEq, reduceCtorEq] at h
  case startCopy => exact h ▸ copyMove_startCopy w ..
  case listenToCopy => exact h ▸ copyMove_listenToCopy w ..
  case finishCopy => exact h ▸ copyMove_finishCopy w ..
  case failCopy => exact h ▸ copyMove_failCopy w ..
  case register name =>
    subst h
    exact hother (fun _ => rfl) (Catalog.sameCopies_register hc name)
  case link name existing =>
    subst h
    refine hother (fun _ => rfl) ?_
    unfold link
    split
    · exact .refl _
    · next hl => exact Catalog.sameCopies_link hl
  case addReplica name r =>
    subst h
    exact hother (fun _ => rfl) (Catalog.sameCopies_addReplica hc name r)
  case mount | unmountHost | takeObsolete | forgetHost =>
    subst h
    exact hother (fun _ => rfl) (Catalog.sameCopies_of_data rfl rfl)
  case removeHost name host =>
    subst h
    exact hother (fun _ => rfl) (Catalog.sameCopies_removeHost _ name host)
  case markObsolete name =>
    refine hother (fun _ => rfl) ?_
    split at h
    · cases h
      exact .refl _
    · next hm =>
      cases h
      exact Catalog.sameCopies_markObsolete hm
  case setInMemory name b =>
    subst h
    exact hother (fun _ => rfl) (hupdate name fun _ => rfl)
  case setSize name n =>
    subst h
    exact hother (fun _ => rfl) (hupdate name fun _ => rfl)
  case subscribe | unsubscribe | rescue =>
    subst h
    exact hother (fun _ => rfl) (.refl _)

/-- Every item does to the records of copies what the answer says. -/
theorem copyMove_carryOut (hc : w.catalog.Listed) (i : Item) :
    w.catalog.CopyMove (Moment.copyStep? ⟨w, i⟩) (w.carryOut i).1.catalog := by
  by_cases hi : ∀ token o, i = .obey token o → w.obeyData token o = none
  · rw [copyStep?_of_edits hi]
    exact .other ((edits_carryOut hi).sameCopies hc).2
  · obtain ⟨token, o, rfl, hd⟩ : ∃ token o, i = .obey token o ∧ w.obeyData token o ≠ none := by
      simpa using hi
    obtain ⟨e, he⟩ := Option.ne_none_iff_exists'.mp hd
    rw [show w.carryOut (.obey token o) = e from obey_of_obeyData he]
    exact copyMove_obeyData hc he

end World

end TaskGrid
