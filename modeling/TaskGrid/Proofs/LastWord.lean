import TaskGrid.Proofs.Hearing
import TaskGrid.Proofs.Interference
import TaskGrid.Proofs.Notices
import TaskGrid.Proofs.Observers

/-!
# The last word on an action

A client that is told an event may have commands carried out before the next event is told.  What
an operation has collected to tell is told all the same when they are done, also where they ended
the action that it is about.  So clients that answer hear of every action what clients hear that
only listen, and every event once, but perhaps not in order: an action that was bound together with
others can be cancelled by the first client that hears of it, and the binding is then told after
the end, to its monitor and to the listener.

That is the only way in which an end is not the last word.  What an end tells comes first on the
agenda, so it comes before all that was left to be told about the action (`EndsFirst`); and what is
told about a live action is told before its end, because its end is not on the agenda yet.

* `World.EndsLast`: nothing is told of an action to whoever was told its end.
* `Moment.Recalls`: something is told of the life of an action.
* `Traced`: what was heard of an action and what is still to be told of it.
* `Machine.Course.heard_perm`: whoever answers hears the same events, in some order.
* `Machine.Course.endsLast_iff`: when the end is the last word.
-/

namespace TaskGrid

/-! ## Ends -/

/-- Whether an event belongs to the end of an action: a value that it produced, or the end. -/
def Event.isEnding (e : Event) : Bool := e.isTerminal || e.kind = .valueProduced

/-- To whom a notice tells the end of an action, and of which. -/
def Notice.ends? : Notice → Option (Monitor × Nat)
  | .delivered m e => if e.isTerminal then some (m, e.action) else none
  | _ => none

/-- Whether a notice tells a monitor something of an action, or the listener that it is bound. -/
def Notice.concerns (m : Monitor) (id : Nat) : Notice → Bool
  | .delivered m' e => m' = m && e.action = id
  | .assigned b => b.action = id
  | _ => false

/-- Whether a notice tells of an action whose end another one has told already. -/
def Notice.outlives (later earlier : Notice) : Bool :=
  earlier.ends?.any fun x => later.concerns x.1 x.2

/-- Once a monitor was told the end of an action, it is told nothing more of it, and the listener is
not told that it is bound. -/
def World.EndsLast (w : World) : Prop :=
  w.log.Pairwise fun later earlier => later.outlives earlier = false

instance : DecidablePred World.EndsLast := fun w =>
  inferInstanceAs (Decidable (w.log.Pairwise _))

/-- The bindings that an item tells the listener. -/
def Item.bindings : Item → List Assignment
  | .report told _ => told
  | _ => []

/-- A monitor was told the end of an action. -/
def World.ToldEnd (w : World) (m : Monitor) (id : Nat) : Prop :=
  ∃ e ∈ w.heard m id, e.isTerminal = true

/-- At a moment something of the life of an action is told, and not of its end: an event, or a
binding to the listener. -/
def Moment.Recalls (x : Moment) (id : Nat) : Prop :=
  (∃ m e, x.item.delivery? = some (m, e) ∧ e.action = id ∧ e.isEnding = false) ∨
    x.world.listener.isSome = true ∧ ∃ b ∈ x.item.bindings, b.action = id

/-- What is told at a moment of the life of an action is told while the action is live. -/
def Moment.Current (x : Moment) : Prop :=
  ∀ id, x.Recalls id → (x.world.schedule.actions.get? id).isSome = true

theorem Opening.isEnding_of_mem {id : Nat} {s : ActionState} {l : List Event}
    (h : Opening id s l) {e : Event} (he : e ∈ l) : e.isEnding = false := by
  obtain ⟨-, hgo, hval⟩ := h.mem he
  simp [Event.isEnding, hgo, hval]

theorem Ending.isEnding_of_mem {ending : Ending} {id : Nat} {e : Event}
    (he : e ∈ ending.events id) : e.isEnding = true := by
  rw [events_eq] at he
  rcases List.mem_append.mp he with he | he
  · obtain ⟨v, -, rfl⟩ := List.mem_map.mp he
    rfl
  · rw [List.mem_singleton.mp he]
    cases ending <;> rfl

/-- The end itself comes last in what is told at an end. -/
theorem Ending.isTerminal_of_append {ending : Ending} {id : Nat} {l r : List Event}
    (h : ending.events id = l ++ r) (hr : r ≠ []) {e : Event} (he : e ∈ l) :
    e.isTerminal = false := by
  obtain ⟨l₁, l₂, rfl⟩ := List.append_of_mem he
  rw [events_eq, List.append_assoc, List.cons_append] at h
  rcases append_cons_cases h with ⟨k, hk⟩ | ⟨k, -, hk⟩
  · obtain ⟨v, -, rfl⟩ := List.mem_map.mp (hk ▸ List.mem_append_right l₁ List.mem_cons_self :
      e ∈ ending.values.map (Event.valueProduced id))
    rfl
  · cases k with
    | nil => exact absurd (List.append_eq_nil_iff.mp (List.cons.inj hk).2.symm).2 hr
    | cons a k => simp at hk

/-! ## What is still to be told -/

namespace Item

variable {a m : Monitor} {id : Nat} {e : Event} {i j : Item} {l : List Item}

/-- An item tells of an action's life, and not of its end. -/
def Stale (id : Nat) (j : Item) : Prop :=
  (∃ m e, j.delivery? = some (m, e) ∧ e.action = id ∧ e.isEnding = false) ∨
    ∃ b ∈ j.bindings, b.action = id

/-- An item tells of an action's end. -/
def Final (id : Nat) (j : Item) : Prop :=
  ∃ m e, j.delivery? = some (m, e) ∧ e.action = id ∧ e.isEnding = true

/-- What is told of an action's end is told before what is left to be told of its life. -/
def EndsFirst (id : Nat) (l : List Item) : Prop :=
  l.Pairwise fun i j => i.Stale id → ¬ j.Final id

theorem Stale.not_final (h : j.Stale id) : ¬ j.Final id := by
  rintro ⟨m, e, hj, -, hend⟩
  rcases h with ⟨m', e', hj', -, hgo⟩ | ⟨b, hb, -⟩
  · rw [hj] at hj'
    cases hj'
    rw [hend] at hgo
    cases hgo
  · cases j with
    | report => cases hj
    | _ => cases hb

/-- What is due is told by an item that tells it. -/
theorem exists_of_mem_due (h : e ∈ due a id j) :
    e.action = id ∧ ∃ m, j.delivery? = some (m, e) := by
  unfold due at h
  split at h
  · next m e' =>
    split at h
    · next hc => exact ⟨List.mem_singleton.mp h ▸ hc.2, m, List.mem_singleton.mp h ▸ rfl⟩
    · cases h
  · next m e' =>
    split at h
    · next hc => exact ⟨List.mem_singleton.mp h ▸ hc.2, m, List.mem_singleton.mp h ▸ rfl⟩
    · cases h
  · cases h

/-- Whoever is told something directly is to be told it. -/
theorem due_of_delivery? (h : j.delivery? = some (m, e)) : due m e.action j = [e] := by
  cases j with
  | deliver m' e' =>
    cases h
    exact if_pos ⟨List.mem_cons_self, rfl⟩
  | note n =>
    cases n with
    | delivered m' e' =>
      cases h
      exact if_pos ⟨rfl, rfl⟩
    | _ => cases h
  | _ => cases h

theorem mem_dues (h : e ∈ dues a id l) : ∃ j ∈ l, e ∈ due a id j := List.mem_flatMap.mp h

theorem mem_dues_of_mem (hj : j ∈ l) (h : j.delivery? = some (m, e)) :
    e ∈ dues m e.action l :=
  List.mem_flatMap.mpr ⟨j, hj, by rw [due_of_delivery? h]; exact List.mem_singleton_self e⟩

theorem endsFirst_append {r : List Item} : EndsFirst id (l ++ r) ↔
    EndsFirst id l ∧ EndsFirst id r ∧ ∀ i ∈ l, ∀ j ∈ r, i.Stale id → ¬ j.Final id :=
  List.pairwise_append

theorem endsFirst_of_not_stale (h : ∀ j ∈ l, ¬ j.Stale id) : EndsFirst id l :=
  List.pairwise_of_forall_mem_list fun i hi _ _ hs => absurd hs (h i hi)

/-- An item that only tells gives way to items that tell the same. -/
theorem EndsFirst.replace {items rest : List Item} (h : EndsFirst id (i :: rest))
    (hstale : ∀ j ∈ items, j.Stale id → i.Stale id)
    (hfinal : ∀ j ∈ items, j.Final id → i.Final id) : EndsFirst id (items ++ rest) := by
  obtain ⟨hhead, hrest⟩ := List.pairwise_cons.mp h
  refine endsFirst_append.mpr ⟨?_, hrest, fun j hj k hk hs => hhead k hk (hstale j hj hs)⟩
  exact List.pairwise_of_forall_mem_list fun j hj k hk hs hf =>
    (hstale j hj hs).not_final (hfinal k hk hf)

end Item

/-! ## Bindings that are told -/

namespace Item

variable {l : List Item}

/-- What is tame tells the listener no binding. -/
theorem bindings_of_isTame (h : l.all isTame = true) : l.flatMap bindings = [] := by
  refine List.flatMap_eq_nil_iff.mpr fun j hj => ?_
  have ht := List.all_eq_true.mp h j hj
  cases j with
  | report told capacity => exact List.isEmpty_iff.mp ht
  | _ => rfl

theorem bindings_map {α : Type} {f : α → Item} (l : List α) (h : ∀ a, (f a).bindings = []) :
    (l.map f).flatMap bindings = [] := by
  refine List.flatMap_eq_nil_iff.mpr fun j hj => ?_
  obtain ⟨a, -, rfl⟩ := List.mem_map.mp hj
  exact h a

theorem bindings_ofOutbox (o : Outbox) : (ofOutbox o).flatMap bindings = o.assignments := by
  unfold ofOutbox
  rw [List.flatMap_append, List.flatMap_cons, bindings_map _ fun _ => rfl,
    bindings_map _ fun _ => rfl, List.append_nil]
  rfl

theorem bindings_of_later (h : ∀ j ∈ l, j.tellsAtOnce = false) : l.flatMap bindings = [] := by
  refine List.flatMap_eq_nil_iff.mpr fun j hj => ?_
  have ht := h j hj
  cases j with
  | report told capacity => simpa [tellsAtOnce, bindings] using ht
  | _ => rfl

end Item

namespace World

variable {w : World} {i : Item} {e : Effect}

/-- Only passes have the listener told bindings. -/
theorem Utters.bindings (h : w.Utters i e) :
    e.2.flatMap Item.bindings = [] ∨ ∃ token, e = w.runPass token := by
  cases h with
  | aside _ _ tame => exact .inl (Item.bindings_of_isTame tame)
  | exchange _ _ _ _ later => exact .inl (Item.bindings_of_later later)
  | offer _ key offered adaptor tame =>
    exact .inl (by simp [addWorker, Item.bindings, Item.bindings_of_isTame tame])
  | reduce token =>
    refine .inl ?_
    unfold reduceWorker
    split <;> simp [Item.bindings]
  | remove key hook tame =>
    refine .inl ?_
    have htail := Item.bindings_of_isTame tame
    unfold removeWorker
    split <;> simp [depart, Item.bindings, htail, Item.bindings_of_isTame]
  | retire key seq =>
    refine .inl ?_
    unfold World.retire
    split <;> simp [depart, Item.bindings, Item.bindings_of_isTame]
  | failBound key ids =>
    exact .inl ((Item.bindings_ofOutbox _).trans (w.schedule.alike_abandon key ids).assignments)
  | lose token key byAgent =>
    refine .inl ?_
    unfold loseWorker
    split
    · simp [Item.bindings]
    · dsimp only
      split <;> simp [depart, Item.bindings, Item.bindings_of_isTame]
  | conclude x values events last tame =>
    have hnone := (w.schedule.reports_conclude w.pool x events last).1
    exact .inl (by simp [World.conclude, Item.bindings, List.flatMap_map, Item.bindings_ofOutbox,
      hnone, Item.bindings_of_isTame tame])
  | pass token => exact .inr ⟨token, rfl⟩
  | pool token => exact .inl (by simp [changePool, List.flatMap_map, Item.bindings])

theorem bindings_runPass (w : World) (token : Option Nat) :
    (w.runPass token).2.flatMap Item.bindings = w.passed.outbox.assignments := by
  have hincidents : (w.passed.incidents.map Item.ofIncident).flatMap Item.bindings = [] :=
    Item.bindings_of_isTame (Item.all_isTame_map _ Item.isTame_ofIncident)
  show (w.passed.incidents.map Item.ofIncident ++ Item.ofOutbox w.passed.outbox ++ _).flatMap
    Item.bindings = _
  rw [List.flatMap_append, List.flatMap_append, hincidents, Item.bindings_ofOutbox,
    Item.bindings_map _ fun _ => rfl, List.append_nil]
  rfl

/-- The actions that a pass binds are live afterwards. -/
theorem live_of_assigned {agenda : List Item} (ha : Agrees w.schedule w.pool agenda)
    (hcovers : Covers w.schedule w.pool) (hcalm : w.disturbances = []) {b : Assignment}
    (hb : b ∈ w.passed.outbox.assignments) :
    ∃ x, w.passed.schedule.actions.get? b.action = some x := by
  have hready : b.action ∈ w.schedule.ready :=
    ((Pass.kept_start hcovers w.catalog w.disturbances w.scored).binds rfl w.policy).ready b hb
  obtain ⟨y, hy, -⟩ := ha.sound.ready_iff.mp hready
  obtain ⟨x, hx, -⟩ := Schedule.standing?_eq_some_iff.mp hy
  have hsteady := ha.steady w.catalog w.scored
  rw [← hcalm] at hsteady
  obtain ⟨es, -, -, hleads⟩ := (Pass.goes_run w.policy hsteady).advances
  cases hleads b.action with
  | aside before _ _ =>
    have hx' : w.schedule.actions.get? b.action = none := before
    rw [hx] at hx'
    cases hx'
  | on _ after _ _ => exact ⟨_, after⟩

/-- Whatever the listener is to be told as bound is live. -/
theorem live_of_binding {agenda : List Item} (ha : Agrees w.schedule w.pool agenda)
    (hcovers : Covers w.schedule w.pool) (hcalm : w.disturbances = []) {j : Item}
    (hj : j ∈ (w.carryOut i).2) {b : Assignment} (hb : b ∈ j.bindings) :
    ∃ x, (w.carryOut i).1.schedule.actions.get? b.action = some x := by
  by_cases hi : i.capacities = []
  · have hmem : b ∈ (w.carryOut i).2.flatMap Item.bindings := List.mem_flatMap.mpr ⟨j, hj, hb⟩
    rcases (utters_carryOut w hi).bindings with hnil | ⟨token, he⟩
    · rw [hnil] at hmem
      cases hmem
    · rw [he] at hmem ⊢
      rw [bindings_runPass] at hmem
      exact live_of_assigned ha hcovers hcalm hmem
  · cases i with
    | note | report | tellCapacity => cases hj
    | _ => exact absurd rfl hi

end World

/-! ## The account of an action when clients answer -/

namespace Machine

/-- What was heard of an action and what is still to be told of it. -/
inductive Traced (m : Machine) (id : Nat) : Prop
  /-- There was no such action. -/
  | unheard (gone : m.world.schedule.actions.get? id = none) (silent : ∀ a, m.account a id = [])
    (unbound : ∀ j ∈ m.agenda, ¬ j.Stale id)
  /-- It is live, and what there is to tell reaches its hearers in some order. -/
  | live {x : Entry} {l : List Event} (live : m.world.schedule.actions.get? id = some x)
    (follows : x.Follows id l)
    (told : ∀ a, (m.account a id).Perm (if a ∈ x.monitor.hearers then l else []))
  /-- It has ended.  What its end tells is told in order, and before what is left to be told. -/
  | closed {k : Monitor} {l : List Event} {ending : Ending}
    (gone : m.world.schedule.actions.get? id = none) (old : id < m.world.schedule.nextId)
    (told : ∀ a, (m.account a id).Perm (if a ∈ k.hearers then l ++ ending.events id else []))
    (ends : ∀ a, (m.account a id).filter Event.isEnding =
      if a ∈ k.hearers then ending.events id else [])
    (first : Item.EndsFirst id m.agenda)

variable {m m' : Machine} {w : World} {i : Item} {rest : List Item} {id : Nat}

/-- Nothing happens to an action, and the agenda tells the same of it. -/
theorem Traced.later (h : Traced m id)
    (hs : m'.world.schedule.actions.get? id = m.world.schedule.actions.get? id)
    (hnext : m.world.schedule.nextId ≤ m'.world.schedule.nextId)
    (told : ∀ a, m'.account a id = m.account a id)
    (unbound : (∀ j ∈ m.agenda, ¬ j.Stale id) → ∀ j ∈ m'.agenda, ¬ j.Stale id)
    (first : Item.EndsFirst id m.agenda → Item.EndsFirst id m'.agenda) : Traced m' id := by
  cases h with
  | unheard gone silent unbound' =>
    exact .unheard (hs.trans gone) (fun a => (told a).trans (silent a)) (unbound unbound')
  | live live follows told' => exact .live (hs.trans live) follows fun a => told a ▸ told' a
  | closed gone old told' ends first' =>
    exact .closed (hs.trans gone) (Nat.lt_of_lt_of_le old hnext) (fun a => told a ▸ told' a)
      (fun a => told a ▸ ends a) (first first')

/-- The first item gives way to items that tell the same of an action. -/
theorem Traced.replace {items : List Item} {w' : World} (h : Traced ⟨w, i :: rest⟩ id)
    (hs : w'.schedule.actions.get? id = w.schedule.actions.get? id)
    (hnext : w.schedule.nextId ≤ w'.schedule.nextId)
    (told : ∀ a, w'.heard a id ++ Item.dues a id items = w.heard a id ++ Item.due a id i)
    (hstale : ∀ j ∈ items, j.Stale id → i.Stale id)
    (hfinal : ∀ j ∈ items, j.Final id → i.Final id) : Traced ⟨w', items ++ rest⟩ id := by
  refine h.later hs hnext (fun a => ?_) (fun hun j hj hst => ?_)
    fun hfirst => hfirst.replace hstale hfinal
  · unfold account
    rw [Item.dues_append, ← List.append_assoc, told, Item.dues_cons, List.append_assoc]
  · rcases List.mem_append.mp hj with hj | hj
    · exact hun i List.mem_cons_self (hstale j hj hst)
    · exact hun j (List.mem_cons_of_mem i hj) hst

/-- An item that tells a monitor something at once leads to the same event at most, and to no
binding. -/
theorem relayed_of_mem {j : Item} (hi : i.delivery? ≠ none) (hj : j ∈ (w.carryOut i).2) :
    j.bindings = [] ∧ ∀ k e, j.delivery? = some (k, e) → ∃ k', i.delivery? = some (k', e) := by
  cases i with
  | deliver m e =>
    rcases World.mem_deliver hj with ⟨p, rfl⟩ | ⟨app, inner, -, rfl | ⟨-, rfl⟩⟩
    · exact ⟨rfl, fun _ _ he => by cases he⟩
    · exact ⟨rfl, fun _ _ he => by cases he; exact ⟨m, rfl⟩⟩
    · exact ⟨rfl, fun _ _ he => by cases he⟩
  | note n => cases hj
  | _ => exact absurd rfl hi

theorem Traced.relay (h : Traced ⟨w, i :: rest⟩ id) (hi : i.delivery? ≠ none) :
    Traced (step ⟨w, i :: rest⟩) id := by
  have hr : Relays w i := relays_of_delivery? hi
  rw [step_cons]
  refine h.replace (by rw [hr.schedule]) (Nat.le_of_eq (by rw [hr.schedule]))
    (fun a => hr.account a id) (fun j hj hst => ?_) fun j hj ⟨m, e, he, hrest⟩ => ?_
  · obtain ⟨hb, hd⟩ := relayed_of_mem hi hj
    rcases hst with ⟨m, e, he, hrest⟩ | ⟨b, hmem, -⟩
    · obtain ⟨m', he'⟩ := hd m e he
      exact .inl ⟨m', e, he', hrest⟩
    · rw [hb] at hmem
      cases hmem
  · obtain ⟨m', he'⟩ := (relayed_of_mem hi hj).2 m e he
    exact ⟨m', e, he', hrest⟩

/-- What there is to tell of a live action led it to its state. -/
theorem Traced.exists_follows (h : Traced m id) {x : Entry}
    (hx : m.world.schedule.actions.get? id = some x) : ∃ l, x.Follows id l ∧
      ∀ a, (m.account a id).Perm (if a ∈ x.monitor.hearers then l else []) := by
  cases h with
  | unheard gone _ _ => rw [hx] at gone; cases gone
  | closed gone _ _ _ _ => rw [hx] at gone; cases gone
  | live live follows told =>
    rw [hx] at live
    obtain rfl := Option.some_inj.mp live
    exact ⟨_, follows, told⟩

/-- All that is known of a live action belongs to no end. -/
theorem Traced.not_ending (h : Traced m id) {x : Entry}
    (hx : m.world.schedule.actions.get? id = some x) {a : Monitor} {e : Event}
    (he : e ∈ m.account a id) : e.isEnding = false := by
  obtain ⟨l, follows, told⟩ := h.exists_follows hx
  have hmem := (told a).mem_iff.mp he
  split at hmem
  · exact follows.opening.isEnding_of_mem hmem
  · cases hmem

/-- What is told of an action that is over, among what an item leads to, is told of its end. -/
theorem not_stale_of_tells {es : List (Monitor × Event)} {e : World.Effect}
    (htells : Tells ⟨w, i⟩ e es) (hes : ∀ n ∈ about id es, n.2.isEnding = true)
    (hbound : ∀ j ∈ e.2, ∀ b ∈ j.bindings, b.action ≠ id) : ∀ j ∈ e.2, ¬ j.Stale id := by
  rintro j hj (⟨m, ev, hd, rfl, hgo⟩ | ⟨b, hb, hid⟩)
  · have hmem := Item.mem_dues_of_mem hj hd
    rw [htells.dues, toHear, List.mem_map] at hmem
    obtain ⟨n, hn, rfl⟩ := hmem
    rw [hes n (List.mem_filter.mp hn).1] at hgo
    cases hgo
  · exact hbound j hj b hb hid

/-- An item that tells nothing at once adds nothing to an account. -/
theorem account_of_silent (hi : i.delivery? = none) (a : Monitor) :
    account ⟨w, i :: rest⟩ a id = w.heard a id ++ Item.dues a id rest := by
  unfold account
  rw [Item.dues_cons, Item.due_eq_nil fun m e he => by rw [hi] at he; cases he]
  rfl

/-- What an item has told comes after what was heard, and before what was to be told. -/
theorem account_of_tells {es : List (Monitor × Event)} (hi : i.delivery? = none)
    (htells : Tells ⟨w, i⟩ (w.carryOut i) es) (a : Monitor) :
    account ⟨(w.carryOut i).1, (w.carryOut i).2 ++ rest⟩ a id =
      w.heard a id ++ (toHear a (about id es) ++ Item.dues a id rest) := by
  unfold account
  rw [Item.dues_append, htells.dues, World.heard_carryOut, hi]
  simp

/-- The hearers of an action learn what is new in addition to what they knew. -/
theorem perm_account_of_tells {es : List (Monitor × Event)} (hi : i.delivery? = none)
    (htells : Tells ⟨w, i⟩ (w.carryOut i) es) {a k : Monitor} {l new : List Event}
    (htold : (account ⟨w, i :: rest⟩ a id).Perm (if a ∈ k.hearers then l else []))
    (hes : about id es = new.map (Prod.mk k)) :
    (account ⟨(w.carryOut i).1, (w.carryOut i).2 ++ rest⟩ a id).Perm
      (if a ∈ k.hearers then l ++ new else []) := by
  rw [account_of_tells hi htells, hes, toHear_map]
  rw [account_of_silent hi] at htold
  split at htold
  · next hk =>
    rw [if_pos hk, if_pos hk]
    refine (List.perm_append_comm.append_left _).trans ?_
    rw [← List.append_assoc]
    exact htold.append_right new
  · next hk =>
    rw [if_neg hk, if_neg hk]
    exact htold

/-- What becomes of an action is told in addition to what was to be told. -/
theorem Traced.tell {es : List (Monitor × Event)} (h : Traced ⟨w, i :: rest⟩ id)
    (hi : i.delivery? = none) (htells : Tells ⟨w, i⟩ (w.carryOut i) es)
    (hnext : w.schedule.nextId ≤ (w.carryOut i).1.schedule.nextId) (hsound : w.schedule.Sound)
    (hbound : ∀ j ∈ (w.carryOut i).2, ∀ b ∈ j.bindings,
      ∃ x, (w.carryOut i).1.schedule.actions.get? b.action = some x) :
    Traced (step ⟨w, i :: rest⟩) id := by
  rw [step_cons]
  -- where the action is not live afterwards, nothing new is stale
  have hfresh (gone : (w.carryOut i).1.schedule.actions.get? id = none)
      (hes : ∀ n ∈ about id es, n.2.isEnding = true) :
      ∀ j ∈ (w.carryOut i).2, ¬ j.Stale id :=
    not_stale_of_tells htells hes fun j hj b hb hid => by
      obtain ⟨x, hx⟩ := hbound j hj b hb
      rw [hid, gone] at hx
      cases hx
  cases htells.fate id with
  | on leads hnot =>
    cases leads with
    | aside before after told =>
      have hnew := hfresh after (by rw [told]; exact List.forall_mem_nil _)
      refine h.later (after.trans before.symm) hnext (fun a => ?_) (fun hun j hj => ?_)
        fun hfirst => ?_
      · rw [account_of_tells hi htells, told, toHear_nil, List.nil_append, account_of_silent hi]
      · exact (List.mem_append.mp hj).elim (hnew j) fun hj => hun j (List.mem_cons_of_mem i hj)
      · exact Item.endsFirst_append.mpr ⟨Item.endsFirst_of_not_stale hnew,
          (List.pairwise_cons.mp hfirst).2, fun j hj _ _ hst => absurd hst (hnew j hj)⟩
    | @on x y before after monitor goes =>
      obtain ⟨l, follows, told⟩ := h.exists_follows before
      obtain ⟨new, hes, hy⟩ := goes l follows
      exact .live after hy fun a => monitor ▸ perm_account_of_tells hi htells (told a) hes
  | @begun mon accepts begins =>
    cases h with
    | live live _ _ =>
      exact absurd accepts.1
        (Nat.ne_of_gt (hsound.old (Schedule.standing?_eq_some_iff.mpr ⟨_, live, rfl⟩)))
    | closed _ old _ _ _ => exact absurd accepts.1 (Nat.ne_of_gt old)
    | unheard gone silent _ =>
      obtain ⟨y, new, hy, rfl, hes, hfollows⟩ := begins
      refine .live hy hfollows fun a => perm_account_of_tells (l := []) hi htells ?_ hes
      rw [silent, ite_self]
  | @ended ending how ends =>
    obtain ⟨x, hx, hgone, -, hes⟩ := ends
    have hlife {a : Monitor} {e : Event} : e ∈ account ⟨w, i :: rest⟩ a id → e.isEnding = false :=
      h.not_ending hx
    obtain ⟨l, follows, told⟩ := h.exists_follows hx
    have hes := hes l follows
    have hnew := hfresh hgone fun n hn => by
      rw [hes] at hn
      obtain ⟨e, he, rfl⟩ := List.mem_map.mp hn
      exact Ending.isEnding_of_mem he
    refine .closed hgone (Nat.lt_of_lt_of_le
      (hsound.old (Schedule.standing?_eq_some_iff.mpr ⟨_, hx, rfl⟩)) hnext)
      (fun a => perm_account_of_tells hi htells (told a) hes) (fun a => ?_) ?_
    · have hnone : (w.heard a id ++ Item.dues a id rest).filter Event.isEnding = [] := by
        rw [← account_of_silent hi]
        exact List.filter_eq_nil_iff.mpr fun e he => by simp [hlife he]
      rw [List.filter_append, List.append_eq_nil_iff] at hnone
      rw [account_of_tells hi htells, List.filter_append, List.filter_append, hnone.1, hnone.2,
        List.append_nil, List.nil_append, hes, toHear_map]
      split
      · exact List.filter_eq_self.mpr fun e he => Ending.isEnding_of_mem he
      · rfl
    · refine Item.endsFirst_append.mpr ⟨Item.endsFirst_of_not_stale hnew, ?_,
        fun j hj _ _ hst => absurd hst (hnew j hj)⟩
      refine List.pairwise_of_forall_mem_list fun _ _ j hj _ ⟨m, e, hd, hid, hend⟩ => ?_
      have hmem : e ∈ account ⟨w, i :: rest⟩ m id := by
        rw [account_of_silent hi, ← hid]
        exact List.mem_append_right _ (Item.mem_dues_of_mem hj hd)
      rw [hlife hmem] at hend
      cases hend

end Machine

/-! ## What is written -/

namespace World

variable {w w' : World} {i : Item} {m : Monitor} {id : Nat} {e : Event}

theorem mem_heard : e ∈ w.heard m id ↔ .delivered m e ∈ w.log ∧ e.action = id := by
  unfold heard deliveries
  simp only [List.mem_map, List.mem_filter, List.mem_filterMap, List.mem_reverse,
    decide_eq_true_eq, Prod.exists, exists_eq_right]
  constructor
  · rintro ⟨m', ⟨n, hn, hd⟩, rfl, rfl⟩
    cases n with
    | delivered m'' e'' =>
      cases hd
      exact ⟨hn, rfl⟩
    | _ => cases hd
  · exact fun ⟨hn, hid⟩ => ⟨m, ⟨_, hn, rfl⟩, rfl, hid⟩

/-- A notice tells of an action whose end was told exactly if the end was told to whom it tells. -/
theorem exists_outlives_iff {later : Notice} : (∃ n ∈ w.log, later.outlives n = true) ↔
    ∃ m id, later.concerns m id = true ∧ w.ToldEnd m id := by
  constructor
  · rintro ⟨n, hn, ho⟩
    obtain ⟨⟨m, id⟩, hends, hc⟩ := (Option.any_eq_true _ _).mp ho
    cases n with
    | delivered m' e =>
      rw [Notice.ends?] at hends
      split at hends
      · next hend =>
        cases hends
        exact ⟨_, _, hc, e, mem_heard.mpr ⟨hn, rfl⟩, hend⟩
      · cases hends
    | _ => cases hends
  · rintro ⟨m, id, hc, e, he, hend⟩
    obtain ⟨hn, rfl⟩ := mem_heard.mp he
    exact ⟨_, hn, (Option.any_eq_true _ _).mpr ⟨(m, e.action), if_pos hend, hc⟩⟩

/-- What is told in addition leaves the end the last word if it is not told to whom the end was
told. -/
theorem endsLast_of_log {l : List Notice} (hlog : w'.log = l ++ w.log)
    (hl : l.Pairwise fun later earlier => later.outlives earlier = false) :
    w'.EndsLast ↔ w.EndsLast ∧
      ∀ n ∈ l, ∀ m id, n.concerns m id = true → ¬ w.ToldEnd m id := by
  unfold EndsLast
  rw [hlog, List.pairwise_append, and_iff_right hl]
  refine and_congr_right fun _ => forall₂_congr fun n _ => ?_
  have hiff : (∀ n' ∈ w.log, n.outlives n' = false) ↔ ¬ ∃ n' ∈ w.log, n.outlives n' = true := by
    simp
  rw [hiff, exists_outlives_iff]
  simp

/-- What tells neither an event nor a binding writes nothing of actions. -/
theorem aside_of_writes {n : Notice} (h : i.Writes n) (hi : i.delivery? = none)
    (hreport : ∀ told capacity, i ≠ .report told capacity)
    (hroutine : ∀ n, i = .note n → n.isRoutine = true) :
    n.ends? = none ∧ ∀ m id, n.concerns m id = false := by
  cases i with
  | note n' =>
    obtain rfl : n = n' := h
    have hn := hroutine n rfl
    cases n <;> first | exact ⟨rfl, fun _ _ => rfl⟩ | cases hn
  | deliver => cases hi
  | report told capacity => exact absurd rfl (hreport told capacity)
  | tellCapacity | tellHook => cases h; exact ⟨rfl, fun _ _ => rfl⟩
  | tellRemoved => rcases h with rfl | ⟨_, _, rfl⟩ <;> exact ⟨rfl, fun _ _ => rfl⟩
  | handOver => obtain ⟨_, rfl⟩ := h; exact ⟨rfl, fun _ _ => rfl⟩
  | rescue => rcases h with ⟨_, _, rfl | ⟨_, rfl⟩⟩ | rfl <;> exact ⟨rfl, fun _ _ => rfl⟩
  | obey token c =>
    cases c with
    | finishCopy => obtain ⟨_, _, _, rfl⟩ := h; exact ⟨rfl, fun _ _ => rfl⟩
    | failCopy => obtain ⟨_, _, rfl⟩ := h; exact ⟨rfl, fun _ _ => rfl⟩
    | _ => cases h
  | _ => cases h

/-- An event that is told leaves the end the last word if the monitor was not told the end. -/
theorem endsLast_of_delivery? (h : i.delivery? = some (m, e)) :
    (w.carryOut i).1.EndsLast ↔ w.EndsLast ∧ ¬ w.ToldEnd m e.action := by
  have hlog : (w.carryOut i).1.log = [.delivered m e] ++ w.log := by
    cases i with
    | deliver m' e' =>
      cases h
      dsimp only [carryOut, World.deliver]
      split <;> try rfl
      split <;> rfl
    | note n =>
      cases n with
      | delivered m' e' => cases h; rfl
      | _ => cases h
    | _ => cases h
  rw [endsLast_of_log hlog (List.pairwise_singleton _ _)]
  refine and_congr_right fun _ => ⟨fun hall => ?_, fun hnot n hn m' id hc => ?_⟩
  · exact hall _ (List.mem_singleton_self _) m e.action (by simp [Notice.concerns])
  · rw [List.mem_singleton.mp hn] at hc
    obtain ⟨rfl, rfl⟩ : m = m' ∧ e.action = id := by simpa [Notice.concerns] using hc
    exact hnot

/-- Bindings that are told to the listener leave the end the last word if nobody was told the end of
their actions. -/
theorem endsLast_report (w : World) (told : List Assignment)
    (capacity : List (WorkerKey × Capacity)) :
    (w.report told capacity).EndsLast ↔ w.EndsLast ∧
      (w.listener.isSome = true → ∀ b ∈ told, ∀ m, ¬ w.ToldEnd m b.action) := by
  obtain ⟨l, hlog, hfrom, hto⟩ : ∃ l, (w.report told capacity).log = l ++ w.log ∧
      (∀ n ∈ l, (w.listener.isSome = true ∧ ∃ b ∈ told, n = .assigned b) ∨
        ∃ x : WorkerKey × Capacity, n = .capacity x.1 x.2) ∧
      (w.listener.isSome = true → ∀ b ∈ told, .assigned b ∈ l) := by
    unfold report
    cases hl : w.listener with
    | none => exact ⟨[], rfl, List.forall_mem_nil _, fun h => by cases h⟩
    | some q =>
      dsimp only
      split
      · refine ⟨(told.map Notice.assigned).reverse, by simp [noteAll_eq], fun n hn => ?_, ?_⟩
        · obtain ⟨b, hb, rfl⟩ := List.mem_map.mp (List.mem_reverse.mp hn)
          exact .inl ⟨rfl, b, hb, rfl⟩
        · exact fun _ b hb => List.mem_reverse.mpr (List.mem_map_of_mem hb)
      · refine ⟨(capacity.map fun x => Notice.capacity x.1 x.2).reverse ++
          (told.map Notice.assigned).reverse, by simp [noteAll_eq], fun n hn => ?_, ?_⟩
        · rcases List.mem_append.mp hn with hn | hn
          · obtain ⟨x, -, rfl⟩ := List.mem_map.mp (List.mem_reverse.mp hn)
            exact .inr ⟨x, rfl⟩
          · obtain ⟨b, hb, rfl⟩ := List.mem_map.mp (List.mem_reverse.mp hn)
            exact .inl ⟨rfl, b, hb, rfl⟩
        · exact fun _ b hb =>
            List.mem_append_right _ (List.mem_reverse.mpr (List.mem_map_of_mem hb))
  have hmute : ∀ n ∈ l, n.ends? = none := fun n hn => by
    rcases hfrom n hn with ⟨-, b, -, rfl⟩ | ⟨x, rfl⟩ <;> rfl
  rw [endsLast_of_log hlog (List.pairwise_of_forall_mem_list fun n _ n' hn' => by
    rw [Notice.outlives, hmute n' hn']; rfl)]
  refine and_congr_right fun _ => ⟨fun hall hl b hb m => ?_, fun hnot n hn m id hc => ?_⟩
  · exact hall _ (hto hl b hb) m b.action (by simp [Notice.concerns])
  · rcases hfrom n hn with ⟨hl, b, hb, rfl⟩ | ⟨x, rfl⟩
    · obtain rfl : b.action = id := by simpa [Notice.concerns] using hc
      exact hnot hl b hb m
    · cases hc

/-- Whatever tells neither an event nor a binding leaves the end the last word. -/
theorem endsLast_of_mute (hi : i.delivery? = none)
    (hreport : ∀ told capacity, i ≠ .report told capacity)
    (hroutine : ∀ n, i = .note n → n.isRoutine = true) :
    (w.carryOut i).1.EndsLast ↔ w.EndsLast := by
  obtain ⟨l, hlog, hwrites⟩ := w.log_carryOut i
  have haside (n : Notice) (hn : n ∈ l) := aside_of_writes (hwrites n hn) hi hreport hroutine
  rw [endsLast_of_log hlog (List.pairwise_of_forall_mem_list fun n _ n' hn' => by
    rw [Notice.outlives, (haside n' hn').1]; rfl)]
  refine and_iff_left fun n hn m id hc => ?_
  rw [(haside n hn).2] at hc
  cases hc

end World

/-! ## When the end is the last word -/

namespace Machine

variable {m : Machine} {w : World} {i : Item} {rest : List Item} {id : Nat} {t : List Moment}

/-- While an action is live, nobody was told its end. -/
theorem Traced.not_toldEnd (h : Traced m id) {x : Entry}
    (hx : m.world.schedule.actions.get? id = some x) (a : Monitor) : ¬ m.world.ToldEnd a id := by
  rintro ⟨e, he, hend⟩
  have hgo := h.not_ending hx (List.mem_append_left _ he : e ∈ m.account a id)
  rw [Event.isEnding, hend] at hgo
  cases hgo

/-- Before what is left of the life of an action that is over is told, its end was told: to the
monitor that is told what is left, and to the monitor of the action. -/
theorem Traced.toldEnd (h : Traced ⟨w, i :: rest⟩ id)
    (gone : w.schedule.actions.get? id = none) (hi : i.Stale id) :
    (∃ a, w.ToldEnd a id) ∧
      ∀ a e, i.delivery? = some (a, e) → e.action = id → w.ToldEnd a id := by
  cases h with
  | unheard _ _ unbound => exact absurd hi (unbound i List.mem_cons_self)
  | live live _ _ =>
    have hlive : w.schedule.actions.get? id = some _ := live
    rw [gone] at hlive
    cases hlive
  | @closed k l ending _ _ told ends first =>
    have hfinal : ∀ j ∈ rest, ¬ j.Final id := fun j hj => (List.pairwise_cons.mp first).1 j hj hi
    -- the end is not to be told any more, so it was told
    have htold (a : Monitor) (ha : a ∈ k.hearers) : w.ToldEnd a id := by
      have hall := ends a
      rw [if_pos ha] at hall
      have hlast : ending.last id ∈ ending.events id := by
        rw [Ending.events_eq]
        exact List.mem_append_right _ (List.mem_singleton_self _)
      rw [← hall] at hlast
      obtain ⟨hmem, hend⟩ := List.mem_filter.mp hlast
      refine ⟨ending.last id, ?_, ending.isTerminal_last id⟩
      refine (List.mem_append.mp hmem).resolve_right fun hdue => ?_
      obtain ⟨j, hj, he⟩ := Item.mem_dues hdue
      obtain ⟨hid, m, hd⟩ := Item.exists_of_mem_due he
      have hf : j.Final id := ⟨m, _, hd, hid, hend⟩
      rcases List.mem_cons.mp hj with rfl | hj
      · exact hi.not_final hf
      · exact hfinal j hj hf
    refine ⟨⟨k, htold k List.mem_cons_self⟩, fun a e hd hid => htold a ?_⟩
    have hmem : e ∈ account ⟨w, i :: rest⟩ a id :=
      List.mem_append_right _ (hid ▸ Item.mem_dues_of_mem List.mem_cons_self hd)
    have hhears := (told a).mem_iff.mp hmem
    by_contra hno
    rw [if_neg hno] at hhears
    cases hhears

/-- Whoever is told an event of an end has not been told the end, unless there was none. -/
theorem Traced.not_toldEnd_of_ending (h : Traced ⟨w, i :: rest⟩ id) {a : Monitor} {e : Event}
    (hd : i.delivery? = some (a, e)) (hid : e.action = id) (hend : e.isEnding = true) :
    ¬ w.ToldEnd a id := by
  have hdue : Item.due a id i = [e] := hid ▸ Item.due_of_delivery? hd
  have hmem : e ∈ account ⟨w, i :: rest⟩ a id :=
    List.mem_append_right _ (by rw [Item.dues_cons, hdue]; exact List.mem_cons_self)
  cases h with
  | unheard _ silent _ =>
    rw [silent] at hmem
    cases hmem
  | live live follows told =>
    rw [(Traced.live live follows told).not_ending live hmem] at hend
    cases hend
  | @closed k l ending gone _ _ ends _ =>
    rintro ⟨e', he', hterm⟩
    have hall := ends a
    unfold account at hall
    rw [Item.dues_cons, hdue, List.filter_append, List.filter_append] at hall
    have hne : [e].filter Event.isEnding ++ (Item.dues a id rest).filter Event.isEnding ≠ [] := by
      simp [hend]
    have hin : e' ∈ (w.heard a id).filter Event.isEnding :=
      List.mem_filter.mpr ⟨he', by rw [Event.isEnding, hterm]; rfl⟩
    split at hall
    · rw [Ending.isTerminal_of_append hall.symm hne hin] at hterm
      cases hterm
    · exact hne (List.append_eq_nil_iff.mp hall).2

/-- The end stays the last word exactly if what is told of an action's life is told while the action
is live. -/
theorem endsLast_step (htraced : ∀ id, Traced ⟨w, i :: rest⟩ id)
    (hroutine : ∀ n, i = .note n → n.isRoutine = true) :
    (w.carryOut i).1.EndsLast ↔ w.EndsLast ∧ Moment.Current ⟨w, i⟩ := by
  by_cases hi : i.delivery? = none
  · by_cases hreport : ∃ told capacity, i = .report told capacity
    · obtain ⟨told, capacity, rfl⟩ := hreport
      show (w.report told capacity).EndsLast ↔ _
      rw [World.endsLast_report]
      refine and_congr_right fun _ => ⟨fun hall id hr => ?_, fun hcur hl b hb a => ?_⟩
      · rcases hr with ⟨_, _, hd, -⟩ | ⟨hl, b, hb, rfl⟩
        · cases hd
        · rw [Option.isSome_iff_ne_none]
          intro hgone
          obtain ⟨⟨a, ha⟩, -⟩ := (htraced b.action).toldEnd hgone (.inr ⟨b, hb, rfl⟩)
          exact hall hl b hb a ha
      · obtain ⟨x, hx⟩ := Option.isSome_iff_exists.mp (hcur b.action (.inr ⟨hl, b, hb, rfl⟩))
        exact (htraced b.action).not_toldEnd hx a
    · rw [World.endsLast_of_mute hi (fun told capacity he => hreport ⟨told, capacity, he⟩) hroutine]
      refine (and_iff_left fun id hr => ?_).symm
      rcases hr with ⟨m, e, hd, -⟩ | ⟨-, b, hb, -⟩
      · rw [show i.delivery? = some (m, e) from hd] at hi
        cases hi
      · cases i with
        | report told capacity => exact absurd ⟨told, capacity, rfl⟩ hreport
        | _ => cases hb
  · obtain ⟨⟨a, e⟩, hd⟩ := Option.ne_none_iff_exists'.mp hi
    rw [World.endsLast_of_delivery? hd]
    refine and_congr_right fun _ => ⟨fun hnot id hr => ?_, fun hcur => ?_⟩
    · rcases hr with ⟨a', e', hd', rfl, hgo⟩ | ⟨-, b, hb, -⟩
      · rw [show i.delivery? = some (a', e') from hd'] at hd
        cases hd
        rw [Option.isSome_iff_ne_none]
        intro hgone
        exact hnot (((htraced e.action).toldEnd hgone (.inl ⟨a, e, hd', rfl, hgo⟩)).2 a e hd' rfl)
      · cases i with
        | report => cases hd
        | _ => cases hb
    · by_cases hend : e.isEnding = true
      · exact (htraced e.action).not_toldEnd_of_ending hd rfl hend
      · obtain ⟨x, hx⟩ := Option.isSome_iff_exists.mp
          (hcur e.action (.inl ⟨a, e, hd, rfl, Bool.not_eq_true _ ▸ hend⟩))
        exact (htraced e.action).not_toldEnd hx a

end Machine

/-- Clients may answer, but nobody changes the pool behind the scheduler, and sessions are told only
what the scheduler tells. -/
structure Conduct.Honest (rule : Conduct) : Prop where
  /-- Nobody changes the pool behind the scheduler. -/
  spares : rule.SparesPool
  /-- Nobody tells a session an event between calls. -/
  asks : ∀ {c}, rule.asks c → ∀ app e, c ≠ .tellSession app e
  /-- Nobody does so in answer to an event. -/
  answers : ∀ {c}, rule.answers c → ∀ app e, c ≠ .tellSession app e

namespace Machine

variable {rule : Conduct} {policy : Policy} {localNodes : List String} {withholds : Bool}
  {limit : Nat} {t : List Moment} {m : Machine}

/-- What comes first does not change the pool behind the scheduler. -/
theorem InAgreement.not_pool {w : World} {i : Item} {rest : List Item}
    (h : InAgreement ⟨w, i :: rest⟩) (token : Nat) (o : Pool.Operation) :
    i ≠ .obey token (.pool o) :=
  fun he => h.spared token (.pool o) (he ▸ List.mem_cons_self) rfl

/-- No command tells a session an event that is none of the scheduler's. -/
theorem Course.not_tellSession (hrule : rule.Honest) {w : World} {i : Item} {rest : List Item}
    (h : Course rule (World.fresh policy localNodes withholds limit) t ⟨w, i :: rest⟩) (token : Nat)
    (app : ApplicationId) (e : Event) : i ≠ .obey token (.tellSession app e) := by
  rintro rfl
  exact h.allows (P := fun c => ∀ app e, c ≠ .tellSession app e)
    ⟨agrees_empty limit rfl, rfl, fun _ _ hj => by cases hj⟩ hrule.spares hrule.asks
    hrule.answers List.mem_cons_self app e rfl

/-- In every run whose clients may answer, every action is accounted for. -/
theorem Course.traced (hrule : rule.Honest)
    (h : Course rule (World.fresh policy localNodes withholds limit) t m) (id : Nat) :
    Traced m id := by
  induction h with
  | start => exact .unheard rfl (fun a => rfl) (List.forall_mem_nil _)
  | @ask t w c token _ _ ih =>
    have hstale : ¬ (Item.obey token c).Stale id := by
      rintro (⟨_, _, hd, -⟩ | ⟨_, hb, -⟩)
      · cases hd
      · cases hb
    refine ih.later rfl (Nat.le_refl _) (fun a => rfl) (fun _ j hj => ?_) fun _ =>
      List.pairwise_singleton _ _
    rw [List.mem_singleton.mp hj]
    exact hstale
  | @item t w i rest hc ih =>
    have hag := hc.inAgreement hrule.spares
    by_cases hi : i.delivery? = none
    · obtain ⟨l, hl⟩ := hc.run
      have hl' : Run rule { World.fresh policy localNodes withholds limit with
        disturbances := [] } l ⟨w, i :: rest⟩ := hl
      have hcovers : Covers w.schedule w.pool := hl'.covers
      obtain ⟨es, htells⟩ := tells_carryOut hag.agrees hag.calm hi (hc.not_tellSession hrule)
        hag.not_pool
      exact ih.tell hi htells ((w.does_carryOut i).moves.nextId_le hag.agrees hag.calm)
        hag.agrees.sound fun j hj b hb => World.live_of_binding hag.agrees hcovers hag.calm hj hb
    · exact ih.relay hi
  | @answer t w p rest given _ _ ih =>
    have hmute (j : Item) (hj : j ∈ given.map fun g => Item.obey g.1 g.2) :
        j.delivery? = none ∧ j.bindings = [] := by
      obtain ⟨g, -, rfl⟩ := List.mem_map.mp hj
      exact ⟨rfl, rfl⟩
    refine ih.replace rfl (Nat.le_refl _) (fun a => ?_) (fun j hj hst => ?_) fun j hj hf => ?_
    · rw [Item.dues_of_mute fun j hj => (hmute j hj).1]
      rfl
    · rcases hst with ⟨_, _, hd, -⟩ | ⟨_, hb, -⟩
      · rw [(hmute j hj).1] at hd
        cases hd
      · rw [(hmute j hj).2] at hb
        cases hb
    · obtain ⟨_, _, hd, -⟩ := hf
      rw [(hmute j hj).1] at hd
      cases hd

/-- Whoever answers hears of a live action what those hear who only listen, in some order: between
calls, what the monitor of the action and those to whom it passes events on were told is what led
the action to its state. -/
theorem Course.heard_perm (hrule : rule.Honest)
    (h : Course rule (World.fresh policy localNodes withholds limit) t m) (hdone : m.agenda = [])
    {id : Nat} {x : Entry} (hx : m.world.schedule.actions.get? id = some x) :
    ∃ l, x.Follows id l ∧ ∀ a ∈ x.monitor.hearers, (m.world.heard a id).Perm l := by
  obtain ⟨l, follows, told⟩ := (h.traced hrule id).exists_follows hx
  refine ⟨l, follows, fun a ha => ?_⟩
  have hall := told a
  rw [account, hdone, Item.dues_nil, List.append_nil, if_pos ha] at hall
  exact hall

/-- In any run, whatever clients answer, the end of every action is the last that its monitor and
the listener are told of it exactly if events that lead up to an end, and bindings, are told while
the action is live.  Nothing else can go wrong: what an end tells is told before all that was left
to be told of the action, and in order. -/
theorem Course.endsLast_iff (hrule : rule.Honest)
    (h : Course rule (World.fresh policy localNodes withholds limit) t m) :
    m.world.EndsLast ↔ ∀ x ∈ t, x.Current := by
  induction h with
  | start => exact iff_of_true .nil (List.forall_mem_nil _)
  | ask token _ _ ih => exact ih
  | answer given _ _ ih => exact ih
  | @item t w i rest hc ih =>
    rw [List.forall_mem_cons, and_comm, ← ih]
    exact endsLast_step (hc.traced hrule) fun n hn => hc.isRoutine (hn ▸ List.mem_cons_self)

/-! ### A client that gives up another's task while both are being bound -/

/-- A listener is installed that only hears of bindings. -/
def heralding : Machine := asked (.fresh .fifo [] false 8) 0 (.setListener { quiet := true })

/-- A client submits a task, for which there is no worker yet. -/
def wishing : Machine :=
  asked (heralding.advance 2).world 1 (.submit (.single (.cpus 1) "h") (.client 1 "c"))

/-- So does another one. -/
def wishingToo : Machine :=
  asked (wishing.advance 11).world 2 (.submit (.single (.cpus 1) "h") (.client 2 "d"))

/-- Then a worker is registered that has room for both. -/
def fulfilling : Machine :=
  asked (wishingToo.advance 11).world 3 (.addWorker (.permanent "n") (.cpus (1 + 1)) default)

/-- The first client hears that its task is bound, and cancels the other one. -/
def regretting : Machine :=
  ⟨(fulfilling.advance 4).world, .obey 4 (.cancel 2) :: (fulfilling.advance 4).agenda.tail⟩

/-- The moments until both tasks were submitted. -/
def wishingMoments : List Moment :=
  moments 11 wishingToo ++ (moments 11 wishing ++ (moments 2 heralding ++ []))

/-- The moments if the first client says nothing. -/
def fulfillingMoments : List Moment := moments 9 fulfilling ++ wishingMoments

/-- The moments if it cancels the other task. -/
def regrettingMoments : List Moment :=
  moments 11 regretting ++ (moments 4 fulfilling ++ wishingMoments)

theorem honest_scheduler : (Conduct.lively fun c => c.surface = .scheduler).Honest := by
  have hno {c : Command} (hc : c.surface = .scheduler) : c.surface ≠ .pool ∧
      ∀ app e, c ≠ .tellSession app e := by
    refine ⟨fun hp => ?_, fun app e he => ?_⟩
    · rw [hc] at hp
      cases hp
    · rw [he] at hc
      cases hc
  exact ⟨⟨fun hc => (hno hc).1, fun hc => (hno hc).1⟩, fun hc => (hno hc).2,
    fun hc => (hno hc).2⟩

theorem course_wishing :
    Course (.lively fun c => c.surface = .scheduler) (.fresh .fifo [] false 8) wishingMoments
      ⟨(wishingToo.advance 11).world, []⟩ :=
  ((Course.start.call 0 2 (show _ = _ from rfl) (by decide +kernel)).call 1 11
    (show _ = _ from rfl) (by decide +kernel)).call 2 11 (show _ = _ from rfl) (by decide +kernel)

/-- If the first client says nothing, then everything is told in time. -/
theorem current_fulfilling :
    (fulfilling.advance 9).world.EndsLast ∧ ∀ x ∈ fulfillingMoments, x.Current := by
  have hcourse : Course (.lively fun c => c.surface = .scheduler) (.fresh .fifo [] false 8)
      fulfillingMoments ⟨(fulfilling.advance 9).world, []⟩ :=
    course_wishing.call 3 9 (show _ = _ from rfl) (by decide +kernel)
  have hlast : (fulfilling.advance 9).world.EndsLast := by decide +kernel
  exact ⟨hlast, (Course.endsLast_iff honest_scheduler hcourse).mp hlast⟩

theorem course_regretting :
    Course (.lively fun c => c.surface = .scheduler) (.fresh .fifo [] false 8) regrettingMoments
      (regretting.advance 11) := by
  have htold := (course_wishing.ask 3 (c := .addWorker (.permanent "n") (.cpus (1 + 1))
    default) (show _ = _ from rfl)).advance 4
  exact (htold.respond (by decide +kernel) [(4, .cancel 2)] fun g hg => by
    rw [List.mem_singleton.mp hg]
    exact (show _ = _ from rfl)).advance 11

/-- If it cancels the other task, then the other client hears that its task is cancelled, and after
that, that it is bound; and so does the listener. -/
theorem not_endsLast_regretting :
    Course (.lively fun c => c.surface = .scheduler) (.fresh .fifo [] false 8) regrettingMoments
        (regretting.advance 11) ∧
      (regretting.advance 11).agenda = [] ∧
      (regretting.advance 11).world.heard (.client 2 "d") 2 =
        [.created 2, .ready 2, .noEligibleResource 2, .cancelled 2,
          .assigned 2 (.permanent "n") 0] ∧
      .assigned ⟨2, .permanent "n", 0, "h", .cpus 1⟩ ∈
        ((regretting.advance 11).world.log.takeWhile
          (· ≠ .delivered (.client 2 "d") (.cancelled 2))) ∧
      ¬ (regretting.advance 11).world.EndsLast :=
  ⟨course_regretting, List.isEmpty_iff.mp (by decide +kernel), by decide +kernel,
    by decide +kernel, by decide +kernel⟩

end Machine

end TaskGrid
