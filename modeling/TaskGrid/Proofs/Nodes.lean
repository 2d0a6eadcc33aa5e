import TaskGrid.Proofs.Accounts
import TaskGrid.Proofs.Calls
import TaskGrid.Proofs.Instances
import TaskGrid.Proofs.Notices
import TaskGrid.Proofs.Sessions

/-!
# Nodes of applications

A node that is offered for one application is registered first and recorded in the session of the
application afterwards.  In between a pass runs and its bindings are told, and whoever is told may
end the application: the session closes, and hands back the nodes that it knows of.  The node that
is just being registered is not among them, the record is refused, and the worker stays without
anybody who could release it.

This is the only way in which a worker of an application can get lost, as long as nobody registers
workers for applications or closes sessions behind the agent's back.

* `World.NoOrphan`: every worker of an application is recorded in its session, or asked to leave.
* `Moment.stranded?`: the worker that is left behind at a moment.
* `Housed`: where the workers of applications are accounted for in the course of a call.
* `Machine.Course.noOrphan_of_quiet`: there is no orphan if nobody answers to events.
* `Machine.Course.noOrphan_iff`: there is no orphan if and only if whoever was left behind has left
  since, or was asked to.
-/

namespace TaskGrid

open Machine

/-- Nobody registers workers for applications or closes sessions behind the agent's back. -/
structure Conduct.LeavesNodes (rule : Conduct) : Prop where
  /-- Not between calls. -/
  asks : ∀ {c}, rule.asks c → c.leavesNodes = true
  /-- Not in answer to an event. -/
  answers : ∀ {c}, rule.answers c → c.leavesNodes = true

theorem Conduct.LeavesNodes.sparesPool {rule : Conduct} (h : rule.LeavesNodes) :
    rule.SparesPool := by
  have hpool {c : Command} (hc : c.leavesNodes = true) : c.surface ≠ .pool := fun hs => by
    cases c <;> first | exact absurd hc Bool.false_ne_true | cases hs
  exact ⟨fun hc => hpool (h.asks hc), fun hc => hpool (h.answers hc)⟩

namespace World

/-- Every worker of an application is recorded in its open session, or it was asked to leave. -/
def NoOrphan (w : World) : Prop :=
  ∀ {key v app}, w.pool.worker? key = some v → key.scope = some app →
    w.Records app key ∨ v.removing = true

end World

/-- The worker that is left behind at a moment: it is to be recorded in a session that is no longer
open, and nobody asked it to leave. -/
def Moment.stranded? (x : Moment) : Option (WorkerKey × Nat) :=
  match x.item with
  | .joinNode app view _ =>
    if x.world.sessions.isOpen app then none
    else (x.world.pool.worker? view.key).bind fun v =>
      if v.removing then none else some (view.key, v.seq)
  | _ => none

/-- Who is left behind was to be recorded in a session that is not open. -/
theorem Moment.of_stranded? {w : World} {i : Item} {key : WorkerKey} {seq : Nat}
    (h : Moment.stranded? ⟨w, i⟩ = some (key, seq)) :
    ∃ app view next, i = .joinNode app view next ∧ w.sessions.isOpen app = false ∧
      view.key = key := by
  unfold stranded? at h
  split at h
  · next app view next hitem =>
    split at h
    · cases h
    · next hopen =>
      obtain ⟨v, -, hv⟩ := Option.bind_eq_some_iff.mp h
      obtain ⟨-, he⟩ := Option.ite_none_left_eq_some.mp hv
      cases he
      exact ⟨app, view, next, hitem, Bool.eq_false_iff.mpr hopen, rfl⟩
  · cases h

/-- An open session of an application is closed at a moment. -/
def Moment.Closes (x : Moment) (app : ApplicationId) : Prop :=
  x.item = .endSession app ∧ x.world.sessions.isOpen app = true

/-! ## Nodes that are to be recorded -/

open Sessions (isOpen_iff)

namespace World

variable {w : World} {i : Item} {app : ApplicationId} {key : WorkerKey}

/-- A node is recorded where the session is open. -/
theorem records_joinNode (h : w.sessions.isOpen app = true) (view : WorkerView) (next : Resume) :
    (w.joinNode app view next).1.Records app view.key := by
  obtain ⟨x, hx⟩ := isOpen_iff.mp h
  cases hs : w.agent with
  | none =>
    rw [sessions, hs] at hx
    cases hx
  | some s =>
    rw [sessions, hs] at hx
    have hnode : w.sessions.addNode app view.key =
        .ok ⟨s.live.insert app { x with nodes := x.nodes.insert view.key }⟩ := by
      rw [sessions, hs, Option.getD_some, Sessions.addNode, show s.live.get? app = some x from hx]
    unfold joinNode
    rw [hnode]
    refine ⟨{ x with nodes := x.nodes.insert view.key }, ?_, SortedSet.mem_insert.mpr (.inl rfl)⟩
    dsimp only
    rw [sessions, hs, Option.map_some, Option.getD_some]
    exact SortedMap.get?_insert_self _ _ _

/-- The offer that an item registers, for whom it is and what comes next. -/
def offering? (w : World) : Item → Option (Offer × Option ApplicationId × Resume)
  | .obey token (.offerNode o scope) => w.agent.map fun _ => (o, scope, .answer token)
  | .prepare p =>
    match p.offers with
    | [] => none
    | o :: rest =>
      if o.description.get .primary = 0 then none
      else some (o, some p.app, .prepare { p with offers := rest })
  | _ => none

variable {o : Offer} {scope : Option ApplicationId} {next next' : Resume} {view : WorkerView}

/-- The offer is all that the item is about. -/
theorem carryOut_of_offering? (h : w.offering? i = some (o, scope, next)) :
    w.carryOut i = w.offer o scope next := by
  unfold offering? at h
  split at h
  · next token o' scope' =>
    obtain ⟨s, hs, he⟩ := Option.map_eq_some_iff.mp h
    cases he
    have hitem : w.carryOut (.obey token (.offerNode o scope)) =
        w.withAgent token fun _ => w.offer o scope (.answer token) := rfl
    rw [hitem, withAgent, hs]
  · next p =>
    split at h
    · cases h
    · next o' rest ho =>
      obtain ⟨hprimary, he⟩ := Option.ite_none_left_eq_some.mp h
      cases he
      dsimp only [carryOut]
      unfold prepare
      rw [ho]
      exact if_neg hprimary
  · cases h

/-- It is made under the key that the open sessions allow. -/
theorem offer?_of_offering? (h : w.offering? i = some (o, scope, next)) :
    Moment.offer? ⟨w, i⟩ =
      (w.sessions.keyFor o.name scope).toOption.map fun key => (key, o.description) := by
  unfold offering? at h
  unfold Moment.offer?
  split at h
  · obtain ⟨s, hs, he⟩ := Option.map_eq_some_iff.mp h
    cases he
    rw [sessions, hs]
    rfl
  · split at h
    · cases h
    · next o' rest ho =>
      obtain ⟨hprimary, he⟩ := Option.ite_none_left_eq_some.mp h
      cases he
      dsimp only
      rw [ho]
      exact if_neg hprimary
  · cases h

/-- Where nobody goes behind the agent's back, a worker of an application is offered in no other
way. -/
theorem offering?_of_offer? {c : Capacity}
    (hi : ∀ token c, i = .obey token c → c.leavesNodes = true)
    (ho : Moment.offer? ⟨w, i⟩ = some (key, c)) (hscope : key.scope = some app) :
    ∃ o scope next, w.offering? i = some (o, scope, next) := by
  unfold Moment.offer? at ho
  split at ho
  · next token _ _ _ hitem =>
    cases ho
    have hnone := hi token _ hitem
    rw [Command.leavesNodes, hscope] at hnone
    cases hnone
  · next token _ _ _ hitem => cases hi token _ hitem
  · next token o scope hitem =>
    obtain rfl : i = _ := hitem
    obtain ⟨s, hs, -⟩ := Option.bind_eq_some_iff.mp ho
    exact ⟨o, scope, .answer token, Option.map_eq_some_iff.mpr ⟨s, hs, rfl⟩⟩
  · next p hitem =>
    obtain rfl : i = _ := hitem
    unfold offering?
    split at ho
    · cases ho
    · next hoffers =>
      split at ho
      · cases ho
      · next hprimary =>
        dsimp only
        rw [hoffers]
        exact ⟨_, _, _, if_neg hprimary⟩
  · split at ho
    · dsimp only at ho
      split at ho
      · cases ho
      · cases ho
        cases hscope
    · cases ho
  · cases ho

@[simp] theorem joinNode_notMem_refuse (f : Fault) (next : Resume) :
    .joinNode app view next' ∉ refuse f next := by
  cases next <;> simp [refuse]

@[simp] theorem joinNode_notMem_resume (r : Reply) (next : Resume) :
    .joinNode app view next' ∉ resume r next := by
  cases next <;> simp [resume]

theorem joinNode_notMem_takeOver (im : Import) :
    .joinNode app view next' ∉ (w.takeOver im).2 := by
  unfold takeOver
  split
  · dsimp only
    split <;> simp
  · dsimp only
    split
    · simp
    · split <;> simp [addWorker]
  · dsimp only
    split <;> simp [announcements]

/-- Only an offer leads to a node that is to be recorded. -/
theorem offering?_of_joinNode_mem (h : .joinNode app view next' ∈ (w.carryOut i).2) :
    ∃ o scope next, w.offering? i = some (o, scope, next) := by
  have hprepares := prepares_of_mem h rfl
  cases i with
  | obey token c =>
    cases c with
    | offerNode o scope =>
      have h : .joinNode app view next' ∈
        (w.withAgent token fun _ => w.offer o scope (.answer token)).2 := h
      unfold withAgent at h
      split at h
      · simp at h
      · next s hs => exact ⟨o, scope, .answer token, Option.map_eq_some_iff.mpr ⟨s, hs, rfl⟩⟩
    | importData r =>
      have h : .joinNode app view next' ∈
        (w.withAgent token fun _ => (w, [beginTakeOver r (.answer token)])).2 := h
      unfold withAgent at h
      split at h <;> simp [beginTakeOver] at h
    | runTask r monitor =>
      have h : .joinNode app view next' ∈
        (w.withAgent token fun s => w.runTask s token r monitor).2 := h
      unfold withAgent at h
      split at h <;> simp [runTask] at h
    | _ => cases hprepares
  | joinNode =>
    dsimp only [carryOut] at h
    unfold joinNode at h
    split at h <;> simp at h
  | takeOver im => exact absurd h (joinNode_notMem_takeOver im)
  | takenOver =>
    dsimp only [carryOut, takenOver] at h
    split at h <;> simp at h
  | prepare p =>
    dsimp only [carryOut] at h
    unfold prepare at h
    unfold offering?
    dsimp only
    split at h
    · next o rest _ ho =>
      rw [ho]
      dsimp only at h ⊢
      split at h
      · simp at h
      · next hprimary => exact ⟨_, _, _, if_neg hprimary⟩
    · simp [beginTakeOver] at h
    · simp [submit, Item.ofOutbox] at h
  | _ => cases hprepares

/-- Whoever is registered for an application is to be recorded in its session. -/
theorem of_joinNode_mem_offer (h : .joinNode app view next' ∈ (w.offer o scope next).2) :
    scope = some app ∧ w.sessions.keyFor o.name scope = .ok view.key := by
  unfold offer at h
  split at h
  · simp at h
  · next key hk =>
    dsimp only [addWorker] at h
    split at h
    · simp at h
    · simp only [List.cons_append, List.nil_append, List.mem_cons, List.not_mem_nil, or_false,
        Item.joinNode.injEq, reduceCtorEq, false_or] at h
      obtain ⟨rfl, rfl, -⟩ := h
      exact ⟨rfl, hk⟩

theorem joinNode_mem_offer (hk : w.sessions.keyFor o.name (some app) = .ok key) :
    ∃ view, .joinNode app view next ∈ (w.offer o (some app) next).2 ∧ view.key = key := by
  unfold offer
  rw [hk]
  exact ⟨(w.addWorker key o.description o.adaptor).1,
    List.mem_append_right _ List.mem_cons_self, rfl⟩

/-- Who is to be recorded in a session is being registered for an application with an open
session. -/
theorem of_joinNode_mem (h : .joinNode app view next' ∈ (w.carryOut i).2) :
    (∃ c, Moment.offer? ⟨w, i⟩ = some (view.key, c)) ∧ view.key.scope = some app ∧
      w.sessions.isOpen app = true := by
  obtain ⟨o, scope, next, ho⟩ := offering?_of_joinNode_mem h
  rw [carryOut_of_offering? ho] at h
  obtain ⟨rfl, hk⟩ := of_joinNode_mem_offer h
  obtain ⟨hopen, hkey⟩ := Sessions.keyFor_eq_ok hk
  refine ⟨⟨o.description, ?_⟩, congrArg WorkerKey.scope hkey, hopen⟩
  rw [offer?_of_offering? ho, hk]
  rfl

/-- Whoever is registered for an application through the agent is to be recorded. -/
theorem joinNode_mem {c : Capacity} (hi : ∀ token c, i = .obey token c → c.leavesNodes = true)
    (ho : Moment.offer? ⟨w, i⟩ = some (key, c)) (hscope : key.scope = some app) :
    ∃ view next, .joinNode app view next ∈ (w.carryOut i).2 ∧ view.key = key := by
  obtain ⟨o, scope, next, hoffering⟩ := offering?_of_offer? hi ho hscope
  rw [offer?_of_offering? hoffering] at ho
  rw [carryOut_of_offering? hoffering]
  obtain ⟨k, hk, he⟩ := Option.map_eq_some_iff.mp ho
  cases he
  cases hkey : w.sessions.keyFor o.name scope with
  | error f =>
    rw [hkey] at hk
    cases hk
  | ok k =>
    rw [hkey] at hk
    cases hk
    -- the application of the key is the one that the offer names
    cases scope with
    | none =>
      cases hkey
      cases hscope
    | some app' =>
      obtain ⟨-, hwithin⟩ := Sessions.keyFor_eq_ok hkey
      obtain rfl : app' = app := Option.some.inj ((congrArg WorkerKey.scope hwithin).symm.trans
        hscope)
      obtain ⟨view, hmem, hview⟩ := joinNode_mem_offer hkey
      exact ⟨view, next, hmem, hview⟩

end World

/-! ## Workers -/

/-- Whoever was not asked to leave is new, or was there before and is not asked now. -/
theorem Change.not_asked {x : Moment} {q : Pool} {items : List Item} (h : Change x q items)
    {key : WorkerKey} {u : Worker} (hu : q.worker? key = some u) (hrem : u.removing = false) :
    x.world.pool.worker? key = none ∨ ∃ v, x.world.pool.worker? key = some v ∧ v.seq = u.seq ∧
      v.removing = false ∧ ∀ hook, x.deed ≠ .remove key hook := by
  -- a request for the worker would be seen
  have hnot {v : Worker} (hv : x.world.pool.worker? key = some v) (hr : x.request? = none)
      (hook : Option RemovalHook) : x.deed ≠ .remove key hook := fun hd => by
    rw [Moment.request?_of_remove hd hv] at hr
    cases hr
  cases h with
  | carries pool unasked =>
    obtain ⟨v, hv, hc⟩ := pool.back hu
    exact .inr ⟨v, hv, hc.seq.symm, hc.removing ▸ hrem, hnot hv unasked.request⟩
  | registers absent pool _ _ _ _ _ unasked =>
    rw [Pool.worker?_of_insert pool] at hu
    split at hu
    · next hk => exact .inl (hk ▸ absent)
    · exact .inr ⟨u, hu, rfl, hrem, hnot hu unasked.request⟩
  | releases deed live release pool _ _ _ =>
    have hother : ∀ hook, x.deed ≠ .remove key hook := fun hook hd => by
      rw [deed] at hd
      cases hd
    rw [Pool.worker?_of_insert pool] at hu
    split at hu
    · next hk =>
      subst hk
      obtain ⟨need, -, rfl⟩ := Worker.release?_eq_some_iff.mp release
      cases hu
      exact .inr ⟨_, live, rfl, hrem, hother⟩
    · exact .inr ⟨u, hu, rfl, hrem, hother⟩
  | drains deed _ _ _ pool _ _ =>
    rw [Pool.worker?_of_insert pool] at hu
    split at hu
    · cases hu
      cases hrem
    · next hk =>
      refine .inr ⟨u, hu, rfl, hrem, fun hook hd => ?_⟩
      rw [deed] at hd
      cases hd
      exact hk rfl
  | leaves _ _ why _ _ pool _ _ _ =>
    rw [Pool.worker?_of_erase pool] at hu
    split at hu
    · cases hu
    · next hk =>
      refine .inr ⟨u, hu, rfl, hrem, fun hook hd => ?_⟩
      rcases why with ⟨_, deed, -⟩ | deed | deed
      · rw [deed] at hd
        cases hd
        exact hk rfl
      · rw [deed] at hd
        cases hd
      · rw [deed] at hd
        cases hd

/-- Whoever is new was offered. -/
theorem Machine.InAgreement.offer?_of_new {w : World} {i : Item} {rest : List Item}
    (h : Machine.InAgreement ⟨w, i :: rest⟩) {key : WorkerKey} {u : Worker}
    (hnone : w.pool.worker? key = none) (hu : (w.carryOut i).1.pool.worker? key = some u) :
    ∃ c, Moment.offer? ⟨w, i⟩ = some (key, c) := by
  rcases World.keepsBooks_or_offers h.agrees.sound h.agrees.unheld h.calm i with
    hkeeps | ⟨key', offered, adaptor, ho, hp⟩
  · obtain ⟨v, hv, -⟩ := hkeeps key u hu
    rw [hnone] at hv
    cases hv
  · by_cases hk : key = key'
    · exact ⟨offered, hk ▸ ho⟩
    · rw [hp, Pool.worker?_add_of_ne _ _ _ hk, hnone] at hu
      cases hu

/-! ## The account of workers -/

/-- A worker was offered under a key for an application, and the session of the application is
still open or was closed since. -/
def Underway (t : List Moment) (w : World) (app : ApplicationId) (key : WorkerKey) : Prop :=
  ∃ t₁ x t₀ c, t = t₁ ++ x :: t₀ ∧ x.offer? = some (key, c) ∧
    (w.sessions.isOpen app = true ∨ ∃ z ∈ t₁, z.Closes app)

/-- Where the workers of applications are accounted for. -/
structure Housed (t : List Moment) (m : Machine) : Prop where
  /-- Open sessions were opened. -/
  issued : m.world.SessionsIssued
  /-- Nobody goes behind the agent's back. -/
  commands : ∀ {token c}, .obey token c ∈ m.agenda → c.leavesNodes = true
  /-- Who is to be recorded was offered for the application. -/
  underway : ∀ {app view next}, .joinNode app view next ∈ m.agenda →
    view.key.scope = some app ∧ m.world.Issued app ∧ Underway t m.world app view.key
  /-- A worker that was not asked to leave is recorded, or to be recorded, or to be released, or was
  left behind. -/
  placed : ∀ {key v app}, m.world.pool.worker? key = some v → key.scope = some app →
    v.removing = false → m.world.Records app key ∨
      (∃ view next, .joinNode app view next ∈ m.agenda ∧ view.key = key) ∨
      .releaseNode key ∈ m.agenda ∨ ∃ x ∈ t, x.stranded? = some (key, v.seq)
  /-- Where a worker was left behind, the session stays closed. -/
  closed : ∀ {x key seq app}, x ∈ t → x.stranded? = some (key, seq) → key.scope = some app →
    m.world.Issued app ∧ m.world.sessions.isOpen app = false

namespace Housed

variable {t : List Moment} {w : World} {i : Item} {rest : List Item}

/-- If a command comes first, it leaves nodes to the agent. -/
theorem head (h : Housed t ⟨w, i :: rest⟩) (token : Nat) (c : Command) (hi : i = .obey token c) :
    c.leavesNodes = true := by
  subst hi
  exact h.commands List.mem_cons_self

/-- An item that is carried out closes the session or leaves it open. -/
theorem underway_cons {app : ApplicationId} {key : WorkerKey} (h : Underway t w app key)
    (hmove : w.SessionMove i (w.carryOut i)) :
    Underway (⟨w, i⟩ :: t) (w.carryOut i).1 app key := by
  obtain ⟨t₁, x, t₀, c, rfl, hx, hopen⟩ := h
  refine ⟨⟨w, i⟩ :: t₁, x, t₀, c, rfl, hx, ?_⟩
  rcases hopen with hopen | ⟨z, hz, hcloses⟩
  · exact (hmove.isOpen hopen).imp_right fun hi => ⟨⟨w, i⟩, List.mem_cons_self, hi, hopen⟩
  · exact .inr ⟨z, List.mem_cons_of_mem _ hz, hcloses⟩

/-- Who is to be recorded has just been offered, or was offered before. -/
theorem underway_step (h : Housed t ⟨w, i :: rest⟩) (hmove : w.SessionMove i (w.carryOut i))
    {app : ApplicationId} {view : WorkerView} {next : Resume}
    (hj : .joinNode app view next ∈ (w.carryOut i).2 ++ rest) :
    view.key.scope = some app ∧ (w.carryOut i).1.Issued app ∧
      Underway (⟨w, i⟩ :: t) (w.carryOut i).1 app view.key := by
  rcases List.mem_append.mp hj with hj | hj
  · obtain ⟨⟨c, hc⟩, hscope, hopen⟩ := World.of_joinNode_mem hj
    refine ⟨hscope, hmove.issued (h.issued app hopen), [], ⟨w, i⟩, t, c, rfl, hc, .inl ?_⟩
    refine (hmove.isOpen hopen).resolve_right fun hi => ?_
    -- to close a session is no offer
    subst hi
    cases hc
  · obtain ⟨hscope, hissued, hunder⟩ := h.underway (List.mem_cons_of_mem _ hj)
    exact ⟨hscope, hmove.issued hissued, underway_cons hunder hmove⟩

theorem placed_step (h : Housed t ⟨w, i :: rest⟩) (hag : Machine.InAgreement ⟨w, i :: rest⟩)
    (hmove : w.SessionMove i (w.carryOut i)) {key : WorkerKey} {u : Worker} {app : ApplicationId}
    (hu : (w.carryOut i).1.pool.worker? key = some u) (hscope : key.scope = some app)
    (hrem : u.removing = false) :
    (w.carryOut i).1.Records app key ∨
      (∃ view next, .joinNode app view next ∈ (w.carryOut i).2 ++ rest ∧ view.key = key) ∨
      .releaseNode key ∈ (w.carryOut i).2 ++ rest ∨
      ∃ x ∈ ⟨w, i⟩ :: t, x.stranded? = some (key, u.seq) := by
  rcases hag.change.not_asked hu hrem with hnone | ⟨v, hv, hseq, hrem, hnot⟩
  · -- who is new is to be recorded
    obtain ⟨c, hc⟩ := hag.offer?_of_new hnone hu
    obtain ⟨view, next, hmem, hview⟩ := World.joinNode_mem h.head hc hscope
    exact .inr (.inl ⟨view, next, List.mem_append_left _ hmem, hview⟩)
  · rw [← hseq]
    rcases h.placed hv hscope hrem with hrec | ⟨view, next, hmem, rfl⟩ | hmem | ⟨x, hx, hs⟩
    · exact (hmove.records_or h.issued hrec).imp_right fun hmem =>
        .inr (.inl (List.mem_append_left _ hmem))
    · rcases List.mem_cons.mp hmem with rfl | hmem
      · -- who is to be recorded is recorded, or left behind
        cases hopen : w.sessions.isOpen app with
        | true => exact .inl (World.records_joinNode hopen view next)
        | false =>
          refine .inr (.inr (.inr ⟨_, List.mem_cons_self, ?_⟩))
          unfold Moment.stranded?
          dsimp only
          rw [hopen, if_neg Bool.false_ne_true, show w.pool.worker? view.key = some v from hv,
            Option.bind_some, hrem, if_neg Bool.false_ne_true]
      · exact .inr (.inl ⟨view, next, List.mem_append_right _ hmem, rfl⟩)
    · rcases List.mem_cons.mp hmem with rfl | hmem
      · exact absurd rfl (hnot (some .agent))
      · exact .inr (.inr (.inl (List.mem_append_right _ hmem)))
    · exact .inr (.inr (.inr ⟨x, List.mem_cons_of_mem _ hx, hs⟩))

/-- A session that was closed once is not opened again. -/
theorem isOpen_eq_false (hmove : w.SessionMove i (w.carryOut i)) {app : ApplicationId}
    (hissued : w.Issued app) (hclosed : w.sessions.isOpen app = false) :
    (w.carryOut i).1.sessions.isOpen app = false := by
  refine Bool.eq_false_iff.mpr fun hopen => ?_
  rcases hmove.isOpen_back hopen with hopen | ⟨rfl, -⟩
  · rw [hclosed] at hopen
    cases hopen
  · obtain ⟨n, hn, he⟩ := hissued
    cases he
    exact absurd hn (Nat.not_succ_le_self _)

theorem closed_step (h : Housed t ⟨w, i :: rest⟩) (hmove : w.SessionMove i (w.carryOut i))
    {x : Moment} {key : WorkerKey} {seq : Nat} {app : ApplicationId} (hx : x ∈ ⟨w, i⟩ :: t)
    (hs : x.stranded? = some (key, seq)) (hscope : key.scope = some app) :
    (w.carryOut i).1.Issued app ∧ (w.carryOut i).1.sessions.isOpen app = false := by
  have hnow : w.Issued app ∧ w.sessions.isOpen app = false := by
    rcases List.mem_cons.mp hx with rfl | hx
    · obtain ⟨app', view, next, rfl, hclosed, rfl⟩ := Moment.of_stranded? hs
      obtain ⟨hscope', hissued, -⟩ := h.underway List.mem_cons_self
      obtain rfl : app' = app := Option.some.inj (hscope'.symm.trans hscope)
      exact ⟨hissued, hclosed⟩
    · exact h.closed hx hs hscope
  exact ⟨hmove.issued hnow.1, isOpen_eq_false hmove hnow.1 hnow.2⟩

theorem step (h : Housed t ⟨w, i :: rest⟩) (hag : Machine.InAgreement ⟨w, i :: rest⟩) :
    Housed (⟨w, i⟩ :: t) (Machine.step ⟨w, i :: rest⟩) := by
  have hmove : w.SessionMove i (w.carryOut i) := World.sessionMove_carryOut h.head
  rw [step_cons]
  refine ⟨hmove.sessionsIssued h.issued, fun hj => ?_, fun hj => h.underway_step hmove hj,
    fun hu hscope hrem => h.placed_step hag hmove hu hscope hrem,
    fun hx hs hscope => h.closed_step hmove hx hs hscope⟩
  exact h.commands
    (List.mem_cons_of_mem _ ((List.mem_append.mp hj).resolve_left World.obey_not_mem))

/-- Nothing is owed by a prompt. -/
theorem answered {p : Prompt} (h : Housed t ⟨w, .prompt p :: rest⟩) : Housed t ⟨w, rest⟩ := by
  refine ⟨h.issued, fun hj => h.commands (List.mem_cons_of_mem _ hj),
    fun hj => h.underway (List.mem_cons_of_mem _ hj), fun hv hscope hrem => ?_, h.closed⟩
  have htail {j : Item} (hj : j ∈ Item.prompt p :: rest) (hne : j ≠ .prompt p) : j ∈ rest :=
    (List.mem_cons.mp hj).resolve_left hne
  rcases h.placed hv hscope hrem with hrec | ⟨view, next, hmem, hview⟩ | hmem | hs
  · exact .inl hrec
  · exact .inr (.inl ⟨view, next, htail hmem (fun he => by cases he), hview⟩)
  · exact .inr (.inr (.inl (htail hmem (fun he => by cases he))))
  · exact .inr (.inr (.inr hs))

/-- Commands owe nothing before they are carried out. -/
theorem agenda {l : List Item} (h : Housed t ⟨w, rest⟩)
    (hl : ∀ j ∈ l, ∃ token c, j = .obey token c ∧ c.leavesNodes = true) :
    Housed t ⟨w, l ++ rest⟩ := by
  refine ⟨h.issued, fun hj => ?_, fun hj => ?_, fun hv hscope hrem => ?_, h.closed⟩
  · rcases List.mem_append.mp hj with hj | hj
    · obtain ⟨token, c, he, hc⟩ := hl _ hj
      cases he
      exact hc
    · exact h.commands hj
  · rcases List.mem_append.mp hj with hj | hj
    · obtain ⟨token, c, he, -⟩ := hl _ hj
      cases he
    · exact h.underway hj
  · rcases h.placed hv hscope hrem with hrec | ⟨view, next, hmem, hview⟩ | hmem | hs
    · exact .inl hrec
    · exact .inr (.inl ⟨view, next, List.mem_append_right _ hmem, hview⟩)
    · exact .inr (.inr (.inl (List.mem_append_right _ hmem)))
    · exact .inr (.inr (.inr hs))

end Housed

/-! ## Where nobody answers -/

/-- Before a registered node is recorded, nothing but news and a pass is to come, and the session
is open. -/
def RecordsSoon (m : Machine) : Prop :=
  ∀ l₁ l₂ app view next, m.agenda = l₁ ++ .joinNode app view next :: l₂ →
    m.world.sessions.isOpen app = true ∧ ∀ j ∈ l₁, j.stage < 3

namespace World

variable {w : World} {i : Item} {app : ApplicationId} {view : WorkerView} {o : Offer}
  {scope : Option ApplicationId} {next next' : Resume} {l₁ l₂ : List Item}

/-- An offer leads to the record after the news of the worker and a pass. -/
theorem stage_of_offer_eq (h : (w.offer o scope next).2 = l₁ ++ .joinNode app view next' :: l₂) :
    ∀ j ∈ l₁, j.stage < 3 := by
  obtain ⟨rfl, hk⟩ := of_joinNode_mem_offer (h ▸ List.mem_append_right l₁ List.mem_cons_self)
  have hitems : (w.offer o (some app) next).2 =
      (w.addWorker view.key o.description o.adaptor).2.2 ++
        [.joinNode app (w.addWorker view.key o.description o.adaptor).1 next] := by
    unfold offer
    rw [hk]
  have hlow : ∀ j ∈ (w.addWorker view.key o.description o.adaptor).2.2, j.stage < 3 := by
    simp [addWorker, Item.stage]
  rw [hitems] at h
  rcases append_cons_cases h with ⟨e, he⟩ | ⟨e, rfl, he⟩
  · exact fun j hj => hlow j (he ▸ List.mem_append_left _ hj)
  · -- the record is the last item
    cases e with
    | nil => rwa [List.append_nil]
    | cons x e => simp at he

/-- What an item of a low stage leads to is of a low stage, and no session is closed. -/
theorem low_carryOut (hcalm : w.disturbances = []) (hi : i.stage < 3) :
    (∀ j ∈ (w.carryOut i).2, j.stage < 3) ∧ ∀ app, i ≠ .endSession app := by
  have hne : i ≠ .runDeferred := by
    rintro rfl
    exact absurd hi (by simp [Item.stage])
  refine ⟨fun j hj => Nat.lt_of_le_of_lt (below_of_mem hcalm hne hj).stage_le hi, ?_⟩
  rintro app rfl
  exact absurd hi (by simp [Item.stage])

end World

/-- One item after the other, whoever is to be recorded soon is recorded. -/
theorem RecordsSoon.step {w : World} {i : Item} {rest : List Item}
    (h : RecordsSoon ⟨w, i :: rest⟩) (hcalm : w.disturbances = [])
    (hi : ∀ token c, i = .obey token c → c.leavesNodes = true) :
    RecordsSoon (Machine.step ⟨w, i :: rest⟩) := by
  have hmove : w.SessionMove i (w.carryOut i) := World.sessionMove_carryOut hi
  rw [step_cons]
  intro l₁ l₂ app view next hl
  rcases append_cons_cases hl with ⟨e, he⟩ | ⟨e, rfl, he⟩
  · -- the node is registered by the item
    have hmem : .joinNode app view next ∈ (w.carryOut i).2 :=
      he ▸ List.mem_append_right l₁ List.mem_cons_self
    obtain ⟨o, scope, next', ho⟩ := World.offering?_of_joinNode_mem hmem
    have hopen := hmove.isOpen (World.of_joinNode_mem hmem).2.2
    refine ⟨hopen.resolve_right ?_, World.stage_of_offer_eq (World.carryOut_of_offering? ho ▸ he)⟩
    rintro rfl
    cases ho
  · -- the node waited, and the item is part of the news or of the pass
    obtain ⟨hopen, hlow⟩ := h (i :: e) l₂ app view next (congrArg (i :: ·) he)
    obtain ⟨hnew, hkeeps⟩ := World.low_carryOut hcalm (hlow i List.mem_cons_self)
    exact ⟨(hmove.isOpen hopen).resolve_right (hkeeps app),
      List.forall_mem_append.mpr ⟨hnew, fun j hj => hlow j (List.mem_cons_of_mem _ hj)⟩⟩

namespace Machine

variable {rule : Conduct} {asks : Command → Prop} {policy : Policy} {localNodes : List String}
  {withholds : Bool} {limit : Nat} {t : List Moment} {m : Machine} {w : World}

theorem Course.housed (hrule : rule.LeavesNodes)
    (h : Course rule (World.fresh policy localNodes withholds limit) t m) : Housed t m := by
  induction h with
  | start =>
    refine ⟨fun _ ho => ?_, fun hj => ?_, fun hj => ?_, fun hv => ?_, fun hx => ?_⟩
    · cases ho
    · cases hj
    · cases hj
    · cases hv
    · cases hx
  | ask token _ hc ih =>
    refine ih.agenda (l := [_]) fun j hj => ?_
    exact ⟨token, _, List.mem_singleton.mp hj, hrule.asks hc⟩
  | item hc ih => exact ih.step (hc.inAgreement hrule.sparesPool)
  | answer given _ hg ih =>
    refine ih.answered.agenda fun j hj => ?_
    obtain ⟨g, hmem, rfl⟩ := List.mem_map.mp hj
    exact ⟨g.1, g.2, rfl, hrule.answers (hg g hmem)⟩

/-- Where nobody answers, nobody is left behind. -/
theorem Course.recordsSoon (hrule : (Conduct.quiet asks).LeavesNodes)
    (h : Course (.quiet asks) (World.fresh policy localNodes withholds limit) t m) :
    RecordsSoon m ∧ ∀ x ∈ t, x.stranded? = none := by
  induction h with
  | start => exact ⟨fun _ _ _ _ _ hl => absurd hl (by simp), List.forall_mem_nil _⟩
  | @ask t w c token _ _ ih =>
    refine ⟨fun l₁ l₂ app view next hl => ?_, ih.2⟩
    cases l₁ with
    | nil => cases hl
    | cons x l₁ => exact absurd hl (by simp)
  | @item t w i rest hc ih =>
    have hcalm := (hc.inAgreement hrule.sparesPool).calm
    have hcommands : ∀ token c, i = .obey token c → c.leavesNodes = true := fun token c he =>
      (hc.housed hrule).commands (List.mem_cons.mpr (.inl he.symm))
    refine ⟨ih.1.step hcalm hcommands, List.forall_mem_cons.mpr ⟨?_, ih.2⟩⟩
    refine Option.eq_none_iff_forall_ne_some.mpr fun s hs => ?_
    obtain ⟨app, view, next, rfl, hclosed, -⟩ := Moment.of_stranded? hs
    rw [(ih.1 [] rest app view next rfl).1] at hclosed
    cases hclosed
  | @answer t w p rest given _ hgiven ih =>
    obtain rfl : given = [] := List.eq_nil_iff_forall_not_mem.mpr hgiven
    refine ⟨fun l₁ l₂ app view next hl => ?_, ih.2⟩
    obtain ⟨hopen, hlow⟩ :=
      ih.1 (.prompt p :: l₁) l₂ app view next (congrArg (Item.prompt p :: ·) hl)
    exact ⟨hopen, fun j hj => hlow j (List.mem_cons_of_mem _ hj)⟩

/-- Where nobody answers to events, there is never an orphan between calls. -/
theorem Course.noOrphan_of_quiet (hrule : (Conduct.quiet asks).LeavesNodes)
    (h : Course (.quiet asks) (World.fresh policy localNodes withholds limit) t ⟨w, []⟩) :
    w.NoOrphan := by
  intro key v app hv hscope
  cases hrem : v.removing with
  | true => exact .inr rfl
  | false =>
    rcases (h.housed hrule).placed hv hscope hrem with
      hrec | ⟨view, next, hmem, -⟩ | hmem | ⟨x, hx, hs⟩
    · exact .inl hrec
    · cases hmem
    · cases hmem
    · rw [(h.recordsSoon hrule).2 x hx] at hs
      cases hs

/-- Who is left behind had been offered for an application whose session was closed since. -/
theorem Course.underway_of_stranded {t₁ t₀ : List Moment} {x : Moment} {key : WorkerKey} {seq : Nat}
    (hrule : rule.LeavesNodes)
    (h : Course rule (World.fresh policy localNodes withholds limit) (t₁ ++ x :: t₀) m)
    (hs : x.stranded? = some (key, seq)) :
    ∃ app, key.scope = some app ∧ x.world.sessions.isOpen app = false ∧
      Underway t₀ x.world app key := by
  obtain ⟨rest, hbefore⟩ := h.before
  obtain ⟨w, i⟩ := x
  obtain ⟨app, view, next, rfl, hclosed, rfl⟩ := Moment.of_stranded? hs
  obtain ⟨hscope, -, hunder⟩ := (hbefore.housed hrule).underway List.mem_cons_self
  exact ⟨app, hscope, hclosed, hunder⟩

/-- Between calls there is no orphan if and only if every worker that was left behind has left
since, or was asked to.  And who was left behind had been offered for its application while the
session was open, and the session was closed before the worker was recorded. -/
theorem Course.noOrphan_iff (hrule : rule.LeavesNodes)
    (h : Course rule (World.fresh policy localNodes withholds limit) t ⟨w, []⟩) :
    (w.NoOrphan ↔ ∀ x ∈ t, ∀ key seq, x.stranded? = some (key, seq) →
      ∀ v, w.pool.worker? key = some v → v.seq = seq → v.removing = true) ∧
    ∀ {t₁ x t₀ key seq}, t = t₁ ++ x :: t₀ → x.stranded? = some (key, seq) →
      ∃ app t₂ y t₃ c, key.scope = some app ∧ t₀ = t₂ ++ y :: t₃ ∧ y.offer? = some (key, c) ∧
        ∃ z ∈ t₂, z.Closes app := by
  have hnow := h.housed hrule
  refine ⟨⟨fun hno x hx key seq hs v hv hseq => ?_, fun hleft key v app hv hscope => ?_⟩,
    fun {t₁ x t₀ key seq} ht hs => ?_⟩
  · obtain ⟨t₁, t₀, ht⟩ := List.append_of_mem hx
    obtain ⟨app, hscope, -⟩ := Course.underway_of_stranded hrule (ht ▸ h) hs
    refine (hno hv hscope).resolve_left fun hrec => ?_
    -- a session that is closed records nothing
    obtain ⟨y, hy, -⟩ := hrec
    have hopen := Sessions.isOpen_iff.mpr ⟨y, hy⟩
    rw [(hnow.closed hx hs hscope).2] at hopen
    cases hopen
  · cases hrem : v.removing with
    | true => exact .inr rfl
    | false =>
      rcases hnow.placed hv hscope hrem with hrec | ⟨view, next, hmem, -⟩ | hmem | ⟨x, hx, hs⟩
      · exact .inl hrec
      · cases hmem
      · cases hmem
      · exact .inr (hrem ▸ hleft x hx key v.seq hs v hv rfl)
  · subst ht
    obtain ⟨app, hscope, hclosed, t₂, y, t₃, c, rfl, hy, hsince⟩ := h.underway_of_stranded hrule hs
    refine ⟨app, t₂, y, t₃, c, hscope, rfl, hy, hsince.resolve_left fun hopen => ?_⟩
    rw [hclosed] at hopen
    cases hopen

/-! ### A node that comes too late -/

/-- A task is run as an application, and a client is told about it. -/
def settingOut : Machine :=
  asked (.fresh .fifo [] false 8) 0
    (.runTask { submission := .single (.cpus 1) "h" } (.client 0 "a"))

/-- A node is offered for the application. -/
def bringing : Machine :=
  asked (settingOut.advance 15).world 1
    (.offerNode { name := "n", description := .cpus 1 } (some (.issued 1)))

/-- The client is told that the task is bound to the node, and says at once that it is done. -/
def hastening : Machine :=
  ⟨(bringing.advance 5).world, .obey 2 (.complete 1 []) :: (bringing.advance 5).agenda.tail⟩

/-- The moments if the client says nothing. -/
def waitingMoments : List Moment := moments 9 bringing ++ (moments 15 settingOut ++ [])

/-- The moments if it does. -/
def hasteningMoments : List Moment :=
  moments 13 hastening ++ (moments 5 bringing ++ (moments 15 settingOut ++ []))

theorem course_waiting :
    Course (.lively fun c => c.leavesNodes = true) (.fresh .fifo [] false 8) waitingMoments
      ⟨(bringing.advance 9).world, []⟩ :=
  (Course.start.call 0 15 (show _ = _ from rfl) (by decide +kernel)).call 1 9
    (show _ = _ from rfl) (by decide +kernel)

theorem leavesNodes_lively :
    (Conduct.lively fun c => c.leavesNodes = true).LeavesNodes := ⟨fun hc => hc, fun hc => hc⟩

/-- A client that waits for the call to return finds the node recorded. -/
theorem noOrphan_waiting :
    (bringing.advance 9).world.NoOrphan ∧
      (bringing.advance 9).world.pool.workersOf (.issued 1) = [.within "n" (.issued 1)] := by
  have hnone : waitingMoments.all (fun x => x.stranded?.isNone) = true := by decide +kernel
  refine ⟨((Course.noOrphan_iff leavesNodes_lively course_waiting).1.mpr
    fun x hx key seq hs => ?_), by decide +kernel⟩
  have hx := List.all_eq_true.mp hnone x hx
  rw [hs] at hx
  cases hx

theorem course_hastening :
    Course (.lively fun c => c.leavesNodes = true) (.fresh .fifo [] false 8) hasteningMoments
      ⟨(hastening.advance 13).world, []⟩ := by
  have hout : Course (.lively fun c => c.leavesNodes = true) (.fresh .fifo [] false 8)
      (moments 15 settingOut ++ []) ⟨(settingOut.advance 15).world, []⟩ :=
    Course.start.call 0 15 (show _ = _ from rfl) (by decide +kernel)
  have htold := (hout.ask 1 (c := .offerNode { name := "n", description := .cpus 1 }
    (some (.issued 1))) (show _ = _ from rfl)).advance 5
  have hdone := (htold.respond (by decide +kernel) [(2, .complete 1 [])] fun g hg => by
    rw [List.mem_singleton.mp hg]
    exact (show _ = _ from rfl)).advance 13
  have hend : (hastening.advance 13).agenda = [] :=
    List.isEmpty_iff.mp (by decide +kernel)
  rw [show (⟨(hastening.advance 13).world, []⟩ : Machine) = hastening.advance 13 from
    congrArg (Machine.mk (hastening.advance 13).world) hend.symm]
  exact hdone

/-- A client that is quicker ends the application while its node is being registered: the offer is
refused, and the worker stays. -/
theorem not_noOrphan_hastening :
    Course (.lively fun c => c.leavesNodes = true) (.fresh .fifo [] false 8) hasteningMoments
        ⟨(hastening.advance 13).world, []⟩ ∧
      .replied 1 (.refused (.unknownApplication "app1")) ∈ (hastening.advance 13).world.log ∧
      ¬ (hastening.advance 13).world.NoOrphan := by
  refine ⟨course_hastening, by decide +kernel, fun hno => ?_⟩
  have hstays : ((hastening.advance 13).world.pool.worker? (.within "n" (.issued 1))).any
      (fun v => !v.removing) = true := by decide +kernel
  have hclosed : (hastening.advance 13).world.sessions.isOpen (.issued 1) = false := by
    decide +kernel
  obtain ⟨v, hv, hrem⟩ := (Option.any_eq_true _ _).mp hstays
  rcases hno hv rfl with ⟨x, hx, -⟩ | hleaves
  · rw [Sessions.isOpen_iff.mpr ⟨x, hx⟩] at hclosed
    cases hclosed
  · rw [hleaves] at hrem
    cases hrem

end Machine

end TaskGrid
