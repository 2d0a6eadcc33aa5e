import Mathlib.Logic.Relation
import TaskGrid.Proofs.Course
import TaskGrid.Proofs.Departure
import TaskGrid.Proofs.Passes

/-!
# What an item can do to the catalog

Every item changes the catalog by the operations of the catalog (`World.step_carryOut`).  It lets
hosts depart, any number of them if the pool is disturbed during a pass, or it is a single
operation, or it registers a name and updates its datum.  So hardly any catalog in between goes
unseen.

Two of the operations can break the order of the catalog: a link can take a name from another
datum, and what is kept for a host can be forgotten while the host is still there.  A moment at
which neither is asked for is *proper*, and along a course of proper moments the catalog stays in
order.

* `Catalog.Change`: one change.
* `Catalog.Departures`, `Catalog.Edit`: what items do to the catalog that are not commands about
  data.
* `Catalog.Step`: what an item does to the catalog.
* `Machine.Course.sound_catalog`: the catalog stays in order.
* `Machine.Course.departure_exact`: every departure from it is exact.
-/

namespace TaskGrid

namespace Catalog

/-- One change of a catalog.  A proper change takes no name from another datum and forgets no
host. -/
inductive Change (proper : Bool) (c : Catalog) : Catalog → Prop where
  /-- A name is registered. -/
  | register (name : String) : Change proper c (c.register name)
  /-- A further name is linked. -/
  | link {name existing : String} {l : Linked} (linked : c.link? name existing = some l)
      (free : proper = true → ∀ k, c.canonical? name = some k → k = l.canonical) :
    Change proper c l.catalog
  /-- A replica is added. -/
  | addReplica (name : String) (r : Replica) : Change proper c (c.addReplica name r).catalog
  /-- A copy finishes. -/
  | finishCopy {data : String} {id : Nat} {e : CopyEnded} (h : c.finishCopy? data id = some e) :
    Change proper c e.catalog
  /-- The leaving replicas are taken from a datum. -/
  | removeHost (name host : String) : Change proper c (c.removeHost name host).2
  /-- A host departs. -/
  | departHost (host : String) : Change proper c (c.departHost host).2
  /-- A host is forgotten. -/
  | forgetHost (host : String) (h : proper = false) : Change proper c (c.forgetHost host)
  /-- Neither names nor replicas change. -/
  | alike {c' : Catalog} (h : c.Alike c') : Change proper c c'

/-- A catalog in order stays so by proper changes. -/
theorem Change.sound {c c' : Catalog} (h : Change true c c') (hc : c.Sound) : c'.Sound := by
  cases h with
  | register name => exact sound_register hc name
  | link linked free => exact sound_link hc linked (free rfl)
  | addReplica name r => exact sound_addReplica hc name r
  | finishCopy h => exact sound_finishCopy hc h
  | removeHost name host => exact sound_removeHost hc name host
  | departHost host => exact (departsExactly_departHost hc host).2
  | forgetHost _ h => cases h
  | alike h => exact hc.similar h.toSimilar

/-- Some changes, one after the other. -/
def Changes (proper : Bool) : Catalog → Catalog → Prop := Relation.ReflTransGen (Change proper)

theorem Changes.sound {c c' : Catalog} (h : Changes true c c') (hc : c.Sound) : c'.Sound := by
  induction h with
  | refl => exact hc
  | tail _ hch ih => exact hch.sound ih

variable {proper : Bool} {c : Catalog}

theorem Changes.refl (c : Catalog) : Changes proper c c := Relation.ReflTransGen.refl

theorem Changes.single {c c' : Catalog} (h : Change proper c c') : Changes proper c c' :=
  Relation.ReflTransGen.single h

/-- Hosts depart, one after the other. -/
def Departures : Catalog → Catalog → Prop :=
  Relation.ReflTransGen fun c c' => ∃ host, c' = (c.departHost host).2

theorem Departures.refl (c : Catalog) : Departures c c := Relation.ReflTransGen.refl

theorem Departures.single (c : Catalog) (host : String) : Departures c (c.departHost host).2 :=
  Relation.ReflTransGen.single ⟨host, rfl⟩

/-- What a departure preserves, departures preserve. -/
theorem Departures.preserves {P : Catalog → Prop} {c c' : Catalog} (h : Departures c c')
    (hP : ∀ (b : Catalog) host, P b → P (b.departHost host).2) (hc : P c) : P c' := by
  induction h with
  | refl => exact hc
  | @tail b _ _ hch ih =>
    obtain ⟨host, rfl⟩ := hch
    exact hP b host ih

/-- What items do to a catalog of their own accord, without a command about data. -/
inductive Edit (c : Catalog) : Catalog → Prop where
  /-- A host departs. -/
  | departHost (host : String) : Edit c (c.departHost host).2
  /-- A replica is added. -/
  | addReplica (name : String) (r : Replica) : Edit c (c.addReplica name r).catalog
  /-- A name that stands for nothing is linked. -/
  | link {name existing : String} {l : Linked} (linked : c.link? name existing = some l)
      (free : c.canonical? name = none) : Edit c l.catalog

/-- Some edits, one after the other. -/
def Edits : Catalog → Catalog → Prop := Relation.ReflTransGen Edit

theorem Edits.refl (c : Catalog) : Edits c c := Relation.ReflTransGen.refl

theorem Edits.single {c c' : Catalog} (h : Edit c c') : Edits c c' := Relation.ReflTransGen.single h

theorem Departures.edits {c c' : Catalog} (h : Departures c c') : Edits c c' :=
  h.preserves (fun _ host hb => Relation.ReflTransGen.tail hb (.departHost host)) (.refl c)

/-- An edit is a proper change. -/
theorem Edit.change {c c' : Catalog} (h : Edit c c') : Change proper c c' := by
  cases h with
  | departHost host => exact .departHost host
  | addReplica name r => exact .addReplica name r
  | link linked free =>
    refine .link linked fun _ k hk => ?_
    rw [free] at hk
    cases hk

theorem Edits.changes {c c' : Catalog} (h : Edits c c') : Changes proper c c' := by
  induction h with
  | refl => exact .refl c
  | tail _ hch ih => exact ih.trans (.single hch.change)

/-- What an item does to a catalog: hosts depart, or it changes once, or a name is registered and
then neither names nor replicas change. -/
inductive Step (proper : Bool) (c : Catalog) : Catalog → Prop where
  /-- Hosts depart. -/
  | departures {c' : Catalog} (h : Departures c c') : Step proper c c'
  /-- The catalog changes once. -/
  | change {c' : Catalog} (h : Change proper c c') : Step proper c c'
  /-- A name is registered, and its datum is updated. -/
  | registerUpdate (name : String) {c' : Catalog} (h : (c.register name).Alike c') :
    Step proper c c'

theorem Step.refl (c : Catalog) : Step proper c c := .departures (.refl c)

theorem Step.changes {c c' : Catalog} (h : Step proper c c') : Changes proper c c' := by
  cases h with
  | departures h => exact h.edits.changes
  | change h => exact .single h
  | registerUpdate name h => exact .trans (.single (.register name)) (.single (.alike h))

end Catalog

open Catalog (Change Changes Departures Edit Edits)

/-! ## Departures and passes -/

namespace Pool

variable {p : Pool} {c : Catalog} {key : WorkerKey}

/-- A worker leaves: it is lost, it is asked to, or it was asked to and has drained.  The pool and
the catalog stand in its departure as they are right afterwards. -/
inductive Departs (p : Pool) (c : Catalog) (key : WorkerKey) (d : Departure) : Prop where
  /-- It is lost. -/
  | lost (h : p.lose? c key = some d)
  /-- It is asked to leave, and nothing is bound to it. -/
  | asked {hook : Option RemovalHook} (h : p.requestRemoval? c key hook = some (.left d))
  /-- It has drained. -/
  | drained {seq : Nat} (h : p.retire? c key seq = some d)

theorem Departs.exists_depart {d : Departure} (h : p.Departs c key d) :
    ∃ w forced, d = p.depart c key w forced := by
  cases h with
  | lost h =>
    obtain ⟨w, -, hd⟩ := lose?_eq_some_iff.mp h
    exact ⟨w, true, hd⟩
  | asked h =>
    obtain ⟨w, -, -, hd⟩ := requestRemoval?_eq_left_iff.mp h
    exact ⟨leaving w _, false, hd⟩
  | drained h =>
    obtain ⟨w, -, -, hd⟩ := retire?_eq_some_iff.mp h
    exact ⟨w, false, hd⟩

theorem serves_iff {host : String} :
    p.serves host = true ↔ ∃ key w, p.worker? key = some w ∧ key.name = host := by
  unfold serves
  rw [List.any_eq_true]
  constructor
  · rintro ⟨key, hk, hn⟩
    obtain ⟨w, hw⟩ := SortedMap.contains_iff.mp (SortedMap.mem_keys_iff.mp hk)
    exact ⟨key, w, hw, of_decide_eq_true hn⟩
  · rintro ⟨key, w, hw, hn⟩
    exact ⟨key, SortedMap.mem_keys_iff.mpr (SortedMap.contains_iff.mpr ⟨w, hw⟩), decide_eq_true hn⟩

/-- The host stays served if another of its workers is registered. -/
theorem serves_depart_iff {w : Worker} {forced : Bool} :
    (p.depart c key w forced).pool.serves key.name = true ↔
      ∃ k v, p.worker? k = some v ∧ k ≠ key ∧ k.name = key.name := by
  rw [serves_iff]
  constructor
  · rintro ⟨k, v, hv, hn⟩
    have hne : k ≠ key := by
      rintro rfl
      rw [worker?_depart_self] at hv
      cases hv
    rw [worker?_depart_of_ne p c w forced hne] at hv
    exact ⟨k, v, hv, hne, hn⟩
  · rintro ⟨k, v, hv, hne, hn⟩
    exact ⟨k, v, (worker?_depart_of_ne p c w forced hne).trans hv, hn⟩

/-- The host of a worker departs with it, unless it stays served. -/
theorem Departs.cases_host {d : Departure} (h : p.Departs c key d) :
    ((∃ k v, p.worker? k = some v ∧ k ≠ key ∧ k.name = key.name) ∧
        d.removed.rescues = [] ∧ d.catalog = c) ∨
      ((∀ k v, p.worker? k = some v → k ≠ key → k.name ≠ key.name) ∧
        (d.removed.rescues, d.catalog) = c.departHost key.name) := by
  obtain ⟨w, forced, rfl⟩ := h.exists_depart
  have hd : ((p.depart c key w forced).removed.rescues, (p.depart c key w forced).catalog) =
      (p.depart c key w forced).pool.departHost c key.name := rfl
  by_cases hs : (p.depart c key w forced).pool.serves key.name = true
  · rw [departHost, if_pos hs] at hd
    exact .inl ⟨serves_depart_iff.mp hs, congrArg Prod.fst hd, congrArg Prod.snd hd⟩
  · rw [departHost, if_neg hs] at hd
    exact .inr ⟨fun k v hv hne hn => hs (serves_depart_iff.mpr ⟨k, v, hv, hne, hn⟩), hd⟩

theorem departures_departs {d : Departure} (h : p.Departs c key d) : Departures c d.catalog := by
  rcases h.cases_host with ⟨-, -, hc⟩ | ⟨-, he⟩
  · rw [hc]
    exact .refl c
  · rw [show d.catalog = (c.departHost key.name).2 from congrArg Prod.snd he]
    exact .single c key.name

theorem departures_perform (p : Pool) (c : Catalog) (o : Operation) :
    Departures c (p.perform c o).catalog := by
  cases o with
  | add _ _ _ => exact .refl c
  | look _ => exact .refl c
  | reduce key amount =>
    dsimp only [perform]
    generalize p.reduce key amount = r
    obtain ⟨answer, q⟩ := r
    cases answer <;> exact .refl c
  | remove key hook =>
    dsimp only [perform]
    cases h : p.requestRemoval? c key hook with
    | none => exact .refl c
    | some r =>
      cases r with
      | left d => exact departures_departs (.asked h)
      | draining _ _ => exact .refl c
  | lose key =>
    dsimp only [perform]
    cases h : p.lose? c key with
    | none => exact .refl c
    | some d => exact departures_departs (.lost h)

end Pool

namespace Pass

variable {p q : Pass}

theorem catalog_bind (p : Pass) (x : Candidate) (free : Capacity) (pool : Pool) :
    (p.bind x free pool).catalog = p.catalog := by
  unfold bind
  dsimp only
  split <;> rfl

/-- In a pass the catalog changes only with the pool that is disturbed. -/
theorem Amid.departures (h : p.Amid q) : Departures p.catalog q.catalog := by
  induction h with
  | start => exact .refl p.catalog
  | score _ _ _ ih => exact ih
  | @disturb q d _ ih =>
    exact Relation.ReflTransGen.trans ih (q.pool.departures_perform q.catalog d.operation)
  | @bind q x free pool _ _ ih =>
    rw [catalog_bind]
    exact ih
  | @revise q x _ ih =>
    obtain ⟨views, hv⟩ := q.revise_eq x
    rw [hv]
    exact ih
  | report _ ih => exact ih

theorem Amid.edits (h : p.Amid q) : Edits p.catalog q.catalog := h.departures.edits

end Pass

/-- Whether at a moment no name is taken from another datum and no host is forgotten. -/
def Moment.isProper (m : Moment) : Bool :=
  match m.item with
  | .obey _ (.link name existing) => (m.world.catalog.canonical? name).all fun k =>
      (m.world.catalog.canonical? existing).all fun k' => k = k'
  | .obey _ (.forgetHost _) => false
  | _ => true

namespace World

variable {proper : Bool} {w : World}

/-! ## Items -/

theorem catalog_noteAll (w : World) (l : List Notice) : (w.noteAll l).catalog = w.catalog := by
  rw [noteAll_eq]

theorem catalog_report (w : World) (a : List Assignment) (l : List (WorkerKey × Capacity)) :
    (w.report a l).catalog = w.catalog := by
  unfold report
  split
  · rfl
  · dsimp only
    split
    · exact catalog_noteAll w _
    · exact (catalog_noteAll _ _).trans (catalog_noteAll w _)

theorem catalog_tellRemoved (w : World) (r : RemovedWorker) (last : Bool) :
    (w.tellRemoved r last).catalog = w.catalog := by
  unfold tellRemoved
  dsimp only
  split
  · rw [catalog_noteAll]
    split <;> rfl
  · split <;> rfl

theorem catalog_deliver (w : World) (m : Monitor) (e : Event) :
    (w.deliver m e).1.catalog = w.catalog := by
  unfold deliver
  dsimp only
  split <;> try rfl
  split <;> rfl

theorem catalog_tellHook (w : World) (hook : RemovalHook) (r : RemovedWorker) :
    (w.tellHook hook r).1.catalog = w.catalog := by
  unfold tellHook
  dsimp only
  split
  · rfl
  · split <;> rfl

theorem catalog_handOver (w : World) (orders : List RescueOrder) :
    (w.handOver orders).1.catalog = w.catalog := by
  unfold handOver
  split
  · rfl
  · rfl
  · split
    · rfl
    · dsimp only
      split <;> rfl

theorem catalog_publish (w : World) (channel : Option Nat) (r : RescueReport) :
    (w.publish channel r).catalog = w.catalog := by
  unfold publish
  split
  · rfl
  · split <;> rfl

theorem catalog_rescue (w : World) (b : RescueBatch) : (w.rescue b).1.catalog = w.catalog := by
  unfold rescue
  split
  · unfold endBatch
    split
    · rfl
    · dsimp only
      rw [catalog_publish]
      split <;> rfl
  · dsimp only
    split <;> rfl

theorem catalog_runDeferred (w : World) : w.runDeferred.1.catalog = w.catalog := by
  unfold runDeferred
  split <;> rfl

theorem catalog_wake (w : World) (name : String) : (w.wake name).1.catalog = w.catalog := by
  unfold wake
  dsimp only
  split <;> rfl

theorem catalog_complete (w : World) (token id : Nat) (values : List ProducedValue) :
    (w.complete token id values).1.catalog = w.catalog := by
  unfold complete
  split
  · rfl
  · split <;> rfl

theorem catalog_fail (w : World) (token id : Nat) (reason : FailureReason) :
    (w.fail token id reason).1.catalog = w.catalog := by
  unfold fail
  split <;> rfl

theorem catalog_cancel (w : World) (token id : Nat) :
    (w.cancel token id).1.catalog = w.catalog := by
  unfold cancel
  split <;> rfl

theorem catalog_markRunning (w : World) (token id : Nat) :
    (w.markRunning token id).1.catalog = w.catalog := by
  unfold markRunning
  split <;> rfl

theorem catalog_reduceWorker (w : World) (token : Nat) (key : WorkerKey) (c : Capacity) :
    (w.reduceWorker token key c).1.catalog = w.catalog := by
  unfold reduceWorker
  split <;> rfl

theorem catalog_offer (w : World) (o : Offer) (app : Option ApplicationId) (next : Resume) :
    (w.offer o app next).1.catalog = w.catalog := by
  unfold offer
  split
  · rfl
  · dsimp only
    split <;> rfl

theorem catalog_prepare (w : World) (p : Preparation) : (w.prepare p).1.catalog = w.catalog := by
  unfold prepare
  split
  · dsimp only
    split
    · rfl
    · exact catalog_offer w _ _ _
  · rfl
  · rfl

theorem catalog_joinNode (w : World) (app : ApplicationId) (v : WorkerView) (next : Resume) :
    (w.joinNode app v next).1.catalog = w.catalog := by
  unfold joinNode
  split <;> rfl

theorem catalog_closeSession (w : World) (app : ApplicationId) :
    (w.closeSession app).1.catalog = w.catalog := by
  unfold closeSession
  split <;> rfl

theorem catalog_endSession (w : World) (app : ApplicationId) :
    (w.endSession app).1.catalog = w.catalog := by
  unfold endSession
  split <;> rfl

theorem departures_removeWorker (w : World) (key : WorkerKey) (hook : Option RemovalHook) :
    Departures w.catalog (w.removeWorker key hook).2.1.catalog := by
  unfold removeWorker
  cases h : w.pool.requestRemoval? w.catalog key hook with
  | none => exact .refl w.catalog
  | some r =>
    cases r with
    | draining _ _ => exact .refl w.catalog
    | left d => exact Pool.departures_departs (.asked h)

theorem departures_answerRemoval (w : World) (token : Nat) (key : WorkerKey)
    (hook : Option RemovalHook) :
    Departures w.catalog (w.answerRemoval token key hook).1.catalog := by
  have hr : Departures w.catalog (w.removeWorker key hook).2.1.catalog :=
    departures_removeWorker w key hook
  unfold answerRemoval
  generalize w.removeWorker key hook = r at hr ⊢
  obtain ⟨status, w', items⟩ := r
  cases status <;> exact hr

theorem departures_loseWorker (w : World) (token : Nat) (key : WorkerKey) (byAgent : Bool) :
    Departures w.catalog (w.loseWorker token key byAgent).1.catalog := by
  unfold loseWorker
  cases h : w.pool.lose? w.catalog key with
  | none => exact .refl w.catalog
  | some d => exact Pool.departures_departs (.lost h)

theorem departures_retire (w : World) (key : WorkerKey) (seq : Nat) :
    Departures w.catalog (w.retire key seq).1.catalog := by
  unfold retire
  cases h : w.pool.retire? w.catalog key seq with
  | none => exact .refl w.catalog
  | some d => exact Pool.departures_departs (.drained h)

/-- Taking over a datum links its name only while the name stands for nothing. -/
theorem edit_takeOver (w : World) (i : Import) :
    (w.takeOver i).1.catalog = w.catalog ∨ Edit w.catalog (w.takeOver i).1.catalog := by
  unfold takeOver
  split
  · dsimp only
    split <;> exact .inl rfl
  · dsimp only
    split
    · exact .inl rfl
    · split <;> exact .inl rfl
  · dsimp only
    split
    · exact .inl rfl
    · next l hl =>
      split at hl
      · cases hl
      · next hreg =>
        obtain ⟨other, -, hl⟩ := Option.bind_eq_some_iff.mp hl
        refine .inr (.link hl ?_)
        rw [Catalog.canonical?, ← SortedMap.contains_eq_false_iff, ← Bool.not_eq_true]
        exact hreg

/-! ## Commands -/

/-- A change of a datum that is registered first. -/
theorem step_registerUpdate (name : String) {f : Datum → Datum}
    (hf : ∀ d : Datum, d.Similar (f d)) (hn : ∀ d : Datum, (f d).names = d.names) :
    Catalog.Step proper w.catalog
      ((w.catalog.register name).update (w.catalog.canonicalOf name) f) :=
  .registerUpdate name (Catalog.alike_update _ _ hf hn)

/-- A change of the mount table alone. -/
theorem step_mounts (c : Catalog) (mounts : Mounts) : Catalog.Step proper c { c with mounts } :=
  .change (.alike (Catalog.alike_of_same rfl rfl (fun _ => rfl) rfl))

theorem step_obeyData {token : Nat} {o : Command} {e : Effect}
    (hp : proper = true → Moment.isProper ⟨w, .obey token o⟩ = true)
    (h : w.obeyData token o = some e) : Catalog.Step proper w.catalog e.1.catalog := by
  have hsame : Catalog.Step proper w.catalog w.catalog := .refl w.catalog
  cases o <;> simp only [obeyData, Option.some.injEq, reduceCtorEq] at h
  case register name =>
    subst h
    exact .change (.register name)
  case link name existing =>
    subst h
    unfold link
    split
    · exact hsame
    · next l hl =>
      refine .change (.link hl ?_)
      intro ht k hk
      obtain ⟨k', hk', rfl⟩ := Option.map_eq_some_iff.mp hl
      have hlink : ((w.catalog.canonical? name).all fun k =>
          (w.catalog.canonical? existing).all fun k' => k = k') = true := hp ht
      rw [hk, hk'] at hlink
      exact of_decide_eq_true hlink
  case addReplica name r =>
    subst h
    exact .change (.addReplica name r)
  case mount disk host point =>
    subst h
    exact step_mounts w.catalog _
  case unmountHost host =>
    subst h
    exact step_mounts w.catalog _
  case startCopy name target listener =>
    subst h
    unfold startCopy
    split
    · exact hsame
    · next r hr => exact .change (.alike (Catalog.alike_startCopy hr))
  case listenToCopy id data listener =>
    subst h
    unfold listenToCopy
    split
    · exact hsame
    · next c hc => exact .change (.alike (Catalog.alike_listenToCopy hc))
  case finishCopy id data =>
    subst h
    unfold finishCopy
    split
    · exact hsame
    · next e he =>
      dsimp only [endCopy]
      rw [catalog_noteAll]
      exact .change (.finishCopy he)
  case failCopy id data reason =>
    subst h
    unfold failCopy
    split
    · exact hsame
    · next e he =>
      dsimp only [endCopy]
      rw [catalog_noteAll]
      exact .change (.alike (Catalog.alike_retireCopy he))
  case removeHost name host =>
    subst h
    exact .change (.removeHost name host)
  case markObsolete name =>
    split at h
    · cases h
      exact hsame
    · next c hc =>
      cases h
      exact .change (.alike (Catalog.alike_markObsolete hc))
  case takeObsolete host =>
    subst h
    exact .change (.alike (Catalog.alike_takeObsolete w.catalog host))
  case forgetHost host =>
    subst h
    refine .change (.forgetHost host ?_)
    cases proper with
    | false => rfl
    | true => cases hp rfl
  case setInMemory name b =>
    subst h
    exact step_registerUpdate name (fun _ => ⟨rfl, rfl, rfl⟩) fun _ => rfl
  case setSize name n =>
    subst h
    exact step_registerUpdate name (fun _ => ⟨rfl, rfl, rfl⟩) fun _ => rfl
  all_goals
    subst h
    exact hsame

theorem departures_withAgent (token : Nat) {f : Sessions → Effect}
    (h : ∀ s, Departures w.catalog (f s).1.catalog) :
    Departures w.catalog (w.withAgent token f).1.catalog := by
  unfold withAgent
  split
  · exact .refl w.catalog
  · exact h _

theorem departures_withNode (token : Nat) (name : String) (app : Option ApplicationId)
    {f : WorkerKey → Effect} (h : ∀ key, Departures w.catalog (f key).1.catalog) :
    Departures w.catalog (w.withNode token name app f).1.catalog :=
  departures_withAgent token fun s => by
    split
    · exact .refl w.catalog
    · exact h _

theorem departures_obeyAgent {token : Nat} {o : Command} {e : Effect}
    (h : w.obeyAgent token o = some e) : Departures w.catalog e.1.catalog := by
  have hsame : Departures w.catalog w.catalog := .refl w.catalog
  cases o <;> simp only [obeyAgent, Option.some.injEq, reduceCtorEq] at h <;> subst h
  case offerNode o app =>
    refine departures_withAgent token fun _ => ?_
    rw [catalog_offer]
    exact hsame
  case reduceNode r =>
    refine departures_withNode token _ _ ?_
    intro key
    rw [catalog_reduceWorker]
    exact hsame
  case removeNode r =>
    exact departures_withNode token _ _ fun key => departures_answerRemoval w token key _
  case loseNode r =>
    exact departures_withNode token _ _ fun key => departures_loseWorker w token key _
  case dispatchRescues transfer deferred reports =>
    refine departures_withAgent token fun _ => ?_
    unfold setDispatcher changed
    split <;> exact hsame
  case finishApplication app =>
    refine departures_withAgent token fun _ => ?_
    split <;> exact hsame
  case addSessionNode app key =>
    refine departures_withAgent token fun _ => ?_
    split <;> exact hsame
  case finishSession app =>
    refine departures_withAgent token fun _ => ?_
    split <;> exact hsame
  case tellSession app event =>
    refine departures_withAgent token fun _ => ?_
    split <;> exact hsame
  all_goals exact departures_withAgent token fun _ => hsame

theorem departures_runPass (w : World) (token : Option Nat) :
    Departures w.catalog (w.runPass token).1.catalog :=
  (Pass.amid_run w.policy
    (Pass.start w.schedule w.pool w.catalog w.disturbances w.scored)).departures

/-- A command that is not about data only lets hosts depart. -/
theorem departures_obey {token : Nat} {o : Command} (hd : w.obeyData token o = none) :
    Departures w.catalog (w.obey token o).1.catalog := by
  have hsame : Departures w.catalog w.catalog := .refl w.catalog
  have hall : Departures w.catalog
      (((w.obeyData token o).or (w.obeyAgent token o)).getD (w.changed token)).1.catalog := by
    rw [hd, Option.none_or]
    cases ha : w.obeyAgent token o with
    | none => exact hsame
    | some e => exact departures_obeyAgent ha
  cases o
  case reduceWorker key c => exact (catalog_reduceWorker w token key c).symm ▸ hsame
  case removeWorker key hook => exact departures_answerRemoval w token key hook
  case loseWorker key => exact departures_loseWorker w token key false
  case pass => exact departures_runPass w (some token)
  case markRunning id => exact (catalog_markRunning w token id).symm ▸ hsame
  case complete id outputs => exact (catalog_complete w token id outputs).symm ▸ hsame
  case fail id reason => exact (catalog_fail w token id reason).symm ▸ hsame
  case cancel id => exact (catalog_cancel w token id).symm ▸ hsame
  case pool o => exact w.pool.departures_perform w.catalog o
  case dispatch orders =>
    dsimp only [obey]
    split <;> exact hsame
  case collectReports =>
    dsimp only [obey]
    split <;> exact hsame
  case collectMail id =>
    dsimp only [obey]
    split <;> exact hsame
  case addWorker | submit | setListener | runDeferred | dropReports | dismissAgent |
    closeMailbox => exact hsame
  all_goals exact hall

/-- A command about data is carried out as such. -/
theorem obey_of_obeyData {token : Nat} {o : Command} {e : Effect}
    (hd : w.obeyData token o = some e) : w.obey token o = e := by
  have hall : ((w.obeyData token o).or (w.obeyAgent token o)).getD (w.changed token) = e := by
    rw [hd]
    rfl
  cases o <;> first | exact hall | cases hd

/-- An item that is not a command about data lets hosts depart, or it is a single edit. -/
theorem departures_or_edit_carryOut {i : Item}
    (hi : ∀ token o, i = .obey token o → w.obeyData token o = none) :
    Departures w.catalog (w.carryOut i).1.catalog ∨ Edit w.catalog (w.carryOut i).1.catalog := by
  have hsame {e : Effect} (h : e.1.catalog = w.catalog) : Departures w.catalog e.1.catalog :=
    h.symm ▸ .refl w.catalog
  cases i with
  | obey token o => exact .inl (departures_obey (hi token o rfl))
  | note n => exact .inl (.refl w.catalog)
  | prompt p => exact .inl (.refl w.catalog)
  | deliver m e => exact .inl (hsame (catalog_deliver w m e))
  | report a c => exact .inl (hsame (e := (w.report a c, [])) (catalog_report w a c))
  | tellCapacity key free =>
    exact .inl (hsame (e := (w.tellCapacity key free, [])) (catalog_report w _ _))
  | tellRemoved r last =>
    exact .inl (hsame (e := (w.tellRemoved r last, [])) (catalog_tellRemoved w r last))
  | tellHook hook r => exact .inl (hsame (catalog_tellHook w hook r))
  | retire key seq => exact .inl (departures_retire w key seq)
  | failBound key ids => exact .inl (.refl w.catalog)
  | pass token => exact .inl (departures_runPass w token)
  | wake name => exact .inl (hsame (catalog_wake w name))
  | addReplica name r token => exact .inr (.addReplica name r)
  | closeSession app => exact .inl (hsame (catalog_closeSession w app))
  | endSession app => exact .inl (hsame (catalog_endSession w app))
  | releaseNode key => exact .inl (departures_removeWorker w key (some .agent))
  | handOver orders => exact .inl (hsame (catalog_handOver w orders))
  | rescue b => exact .inl (hsame (catalog_rescue w b))
  | runDeferred => exact .inl (hsame (catalog_runDeferred w))
  | joinNode app v next => exact .inl (hsame (catalog_joinNode w app v next))
  | takeOver im => exact (edit_takeOver w im).imp_left hsame
  | takenOver name sources next => exact .inl (.refl w.catalog)
  | prepare p => exact .inl (hsame (catalog_prepare w p))

/-- An item that is not a command about data only edits the catalog. -/
theorem edits_carryOut {i : Item}
    (hi : ∀ token o, i = .obey token o → w.obeyData token o = none) :
    Edits w.catalog (w.carryOut i).1.catalog :=
  (departures_or_edit_carryOut hi).elim Departures.edits Edits.single

/-- What an item does to the catalog. -/
theorem step_carryOut {i : Item} (hp : proper = true → Moment.isProper ⟨w, i⟩ = true) :
    Catalog.Step proper w.catalog (w.carryOut i).1.catalog := by
  by_cases hi : ∀ token o, i = .obey token o → w.obeyData token o = none
  · rcases departures_or_edit_carryOut hi with h | h
    · exact .departures h
    · exact .change h.change
  · obtain ⟨token, o, rfl, hd⟩ : ∃ token o, i = .obey token o ∧ w.obeyData token o ≠ none := by
      simpa using hi
    obtain ⟨e, he⟩ := Option.ne_none_iff_exists'.mp hd
    rw [carryOut, obey_of_obeyData he]
    exact step_obeyData hp he

/-- Every item changes the catalog by its operations. -/
theorem changes_carryOut {i : Item} (hp : proper = true → Moment.isProper ⟨w, i⟩ = true) :
    Changes proper w.catalog (w.carryOut i).1.catalog :=
  (step_carryOut hp).changes

end World

namespace Machine

variable {rule : Conduct} {policy : Policy} {localNodes : List String} {withholds : Bool}
  {limit : Nat} {disturbances : List Disturbance} {t : List Moment} {m : Machine}

/-- Along a course of proper moments the catalog stays in order. -/
theorem Course.sound_catalog
    (h : Course rule { World.fresh policy localNodes withholds limit with disturbances } t m)
    (hproper : ∀ x ∈ t, x.isProper = true) : m.world.catalog.Sound := by
  induction h with
  | start => exact Catalog.sound_empty
  | ask _ _ _ ih => exact ih hproper
  | answer _ _ _ ih => exact ih hproper
  | @item t w i rest _ ih =>
    have hc : Changes true w.catalog (w.carryOut i).1.catalog :=
      World.changes_carryOut fun _ => hproper _ List.mem_cons_self
    exact hc.sound (ih fun x hx => hproper x (List.mem_cons_of_mem _ hx))

/-- Whenever a worker leaves, on a course of proper moments, either its host is still served and
nothing becomes of the data, or the departure of its host is exact.  The worker may also leave
while a pass is under way. -/
theorem Course.departure_exact
    (h : Course rule { World.fresh policy localNodes withholds limit with disturbances } t m)
    (hproper : ∀ x ∈ t, x.isProper = true) {q : Pass}
    (hq : (Pass.start m.world.schedule m.world.pool m.world.catalog m.world.disturbances
      m.world.scored).Amid q) {key : WorkerKey} {d : Pool.Departure}
    (hd : q.pool.Departs q.catalog key d) :
    ((∃ k v, q.pool.worker? k = some v ∧ k ≠ key ∧ k.name = key.name) →
      d.removed.rescues = [] ∧ d.catalog = q.catalog) ∧
    ((∀ k v, q.pool.worker? k = some v → k ≠ key → k.name ≠ key.name) →
      q.catalog.DepartsExactly key.name d.removed.rescues d.catalog) := by
  have hsound : q.catalog.Sound := hq.edits.changes.sound (h.sound_catalog hproper)
  rcases hd.cases_host with ⟨⟨k, v, hv, hne, hn⟩, hkept⟩ | ⟨halone, hleft⟩
  · exact ⟨fun _ => hkept, fun hall => absurd hn (hall k v hv hne)⟩
  · refine ⟨fun ⟨k, v, hv, hne, hn⟩ => absurd hn (halone k v hv hne), fun _ => ?_⟩
    have hr : d.removed.rescues = (q.catalog.departHost key.name).1 := congrArg Prod.fst hleft
    have hc : d.catalog = (q.catalog.departHost key.name).2 := congrArg Prod.snd hleft
    rw [hr, hc]
    exact (Catalog.departsExactly_departHost hsound key.name).1

/-! ### A grid with one datum on one host -/

/-- A worker is offered. -/
def hosting : Machine :=
  asked (.fresh .fifo [] false 8) 0 (.addWorker (.permanent "n") (.cpus 1) default)

/-- Then a file of its host becomes the only replica of a datum. -/
def storing : Machine :=
  asked (hosting.advance 5).world 1 (.addReplica "d" (.ownFile "n" "/f"))

theorem course_storing :
    Course (.quiet fun _ => True) { World.fresh .fifo [] false 8 with disturbances := [] }
      (moments 4 storing ++ (moments 5 hosting ++ [])) ⟨(storing.advance 4).world, []⟩ :=
  (Course.start.call 0 5 trivial (by decide +kernel)).call 1 4 trivial (by decide +kernel)

/-- Losing the worker orders the datum to be saved. -/
theorem departure_exact_storing :
    ∃ d, (storing.advance 4).world.pool.lose? (storing.advance 4).world.catalog (.permanent "n") =
        some d ∧
      d.removed.rescues = [⟨"d", "n", .ownFile "n" "/f"⟩] ∧
      (storing.advance 4).world.catalog.DepartsExactly "n" d.removed.rescues d.catalog := by
  obtain ⟨d, hd⟩ := Option.isSome_iff_exists.mp
    (show ((storing.advance 4).world.pool.lose? (storing.advance 4).world.catalog
      (.permanent "n")).isSome = true by decide +kernel)
  have hrescues : ((storing.advance 4).world.pool.lose? (storing.advance 4).world.catalog
      (.permanent "n")).map (·.removed.rescues) = some [⟨"d", "n", .ownFile "n" "/f"⟩] := by
    decide +kernel
  have halone : (storing.advance 4).world.pool.workers.keys.all (· = .permanent "n") = true := by
    decide +kernel
  rw [hd, Option.map_some, Option.some_inj] at hrescues
  refine ⟨d, hd, hrescues, (course_storing.departure_exact ?_ .start (.lost hd)).2 ?_⟩
  · exact List.all_eq_true.mp (by decide +kernel)
  · intro k v hv hne
    exact absurd (of_decide_eq_true (List.all_eq_true.mp halone k
      (SortedMap.mem_keys_iff.mpr (SortedMap.contains_iff.mpr ⟨v, hv⟩)))) hne

end Machine

end TaskGrid
