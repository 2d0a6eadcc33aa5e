import TaskGrid.Proofs.Agreement

/-!
# The life of an action, as it is told

What an action's monitor is told follows from where the action is in its life, and from where it
was: a ready action was created and is ready, and it may have been told that no worker could ever
carry it out; a bound one was ready first.  An action that ends tells its end, and then nothing
more.

* `Opening`: the events that lead an action to a state.
* `Ending.events` says what is told at the end.
* `Regular`: what can be said of the order of all these events.
* `Schedule.Advances`: an operation moves live actions on, and tells this.
* `Schedule.advances_wake`, `Pass.goes_run`: names that wake and passes do.
* `Schedule.begins_accept`, `Schedule.ends_conclude`, `Schedule.endsLost_abandon`: how actions begin
  and end.
-/

namespace TaskGrid

/-- The events that lead an action to a state. -/
inductive Opening (id : Nat) : ActionState → List Event → Prop where
  /-- It was accepted. -/
  | created : Opening id .blocked [.created id]
  /-- Its data are there. -/
  | ready : Opening id .ready [.created id, .ready id]
  /-- Moreover, no worker could ever carry it out. -/
  | unplaced : Opening id .ready [.created id, .ready id, .noEligibleResource id]
  /-- A ready action was bound. -/
  | assigned {l : List Event} (key : WorkerKey) (n : Nat) (h : Opening id .ready l) :
    Opening id .assigned (l ++ [.assigned id key n])
  /-- A bound action is being executed, about which nothing is told. -/
  | running {l : List Event} (h : Opening id .assigned l) : Opening id .running l

/-! ## The order of events -/

/-- The kind of an event says whether it is an end. -/
theorem Event.isTerminal_eq (e : Event) :
    e.isTerminal = decide (e.kind ∈ [Kind.completed, .failed, .cancelled]) := by
  cases e <;> rfl

/-- Only values are told more than once; a worker is spoken of only after the data, values and
completion only after the worker; and the end is the last that is told. -/
structure Regular (l : List Event) : Prop where
  /-- No kind is told twice, values apart. -/
  once : ((l.map Event.kind).filter (· ≠ .valueProduced)).Nodup
  /-- What is about workers is told after the data are there. -/
  afterReady : ∀ {l₁ e l₂}, l = l₁ ++ e :: l₂ → e.kind = .noEligibleResource ∨ e.kind = .assigned →
    .ready ∈ l₁.map Event.kind
  /-- What comes of an execution is told after the action was bound. -/
  afterAssigned : ∀ {l₁ e l₂}, l = l₁ ++ e :: l₂ → e.kind = .valueProduced ∨ e.kind = .completed →
    .assigned ∈ l₁.map Event.kind
  /-- Nothing is told after the end. -/
  last : ∀ {l₁ e l₂}, l = l₁ ++ e :: l₂ → e.isTerminal = true → l₂ = []

/-- What was told so far of what is regular is regular. -/
theorem Regular.mono {l k : List Event} (h : Regular l) (hk : k <+: l) : Regular k := by
  obtain ⟨r, rfl⟩ := hk
  have hext {l₁ l₂ : List Event} {e : Event} (he : k = l₁ ++ e :: l₂) :
      k ++ r = l₁ ++ e :: (l₂ ++ r) := by rw [he, List.append_assoc, List.cons_append]
  refine ⟨?_, fun he => h.afterReady (hext he), fun he => h.afterAssigned (hext he),
    fun he hlast => (List.append_eq_nil_iff.mp (h.last (hext he) hlast)).1⟩
  have hnodup := h.once
  rw [List.map_append, List.filter_append] at hnodup
  exact (List.nodup_append.mp hnodup).1

namespace Ending

/-- What is told last of all. -/
def last (id : Nat) : Ending → Event
  | completed _ => .completed id
  | failed reason => .failed id reason
  | cancelled => .cancelled id

/-- Values are told, if there are any, and then the end. -/
theorem events_eq (ending : Ending) (id : Nat) :
    ending.events id = ending.values.map (.valueProduced id) ++ [ending.last id] := by
  cases ending <;> rfl

theorem isTerminal_last (ending : Ending) (id : Nat) : (ending.last id).isTerminal = true := by
  cases ending <;> rfl

/-- What is told at the end of an action is about it. -/
theorem action_of_mem {ending : Ending} {id : Nat} {e : Event} (he : e ∈ ending.events id) :
    e.action = id := by
  rw [events_eq] at he
  rcases List.mem_append.mp he with he | he
  · obtain ⟨v, -, rfl⟩ := List.mem_map.mp he
    rfl
  · rw [List.mem_singleton.mp he]
    cases ending <;> rfl

end Ending

/-- What stands somewhere in two lists one after the other stands in one of them. -/
theorem append_cons_cases {α : Type} {l r l₁ l₂ : List α} {e : α} (h : l ++ r = l₁ ++ e :: l₂) :
    (∃ k, l = l₁ ++ e :: k) ∨ ∃ k, l₁ = l ++ k ∧ r = k ++ e :: l₂ := by
  rcases List.append_eq_append_iff.mp h with ⟨k, hk, hr⟩ | ⟨k, hk, hr⟩
  · exact .inr ⟨k, hk, hr⟩
  · cases k with
    | nil => exact .inr ⟨[], by simpa using hk.symm, hr.symm⟩
    | cons a k =>
      obtain ⟨rfl, -⟩ := List.cons.inj hr
      exact .inl ⟨k, hk⟩

namespace Opening

variable {id : Nat} {s : ActionState} {l : List Event}

/-- The events of an opening are about the action, end nothing, and are no values. -/
theorem mem (h : Opening id s l) {e : Event} (he : e ∈ l) :
    e.action = id ∧ e.isTerminal = false ∧ e.kind ≠ .valueProduced := by
  induction h with
  | created =>
    rw [List.mem_singleton.mp he]
    exact ⟨rfl, rfl, nofun⟩
  | ready =>
    rcases List.mem_pair.mp he with rfl | rfl <;> exact ⟨rfl, rfl, nofun⟩
  | unplaced =>
    rcases List.mem_cons.mp he with rfl | he
    · exact ⟨rfl, rfl, nofun⟩
    · rcases List.mem_pair.mp he with rfl | rfl <;> exact ⟨rfl, rfl, nofun⟩
  | assigned key n _ ih =>
    rcases List.mem_append.mp he with he | he
    · exact ih he
    · rw [List.mem_singleton.mp he]
      exact ⟨rfl, rfl, nofun⟩
  | running _ ih => exact ih he

/-- No value is told in an opening. -/
theorem value_notMem (h : Opening id s l) : .valueProduced ∉ l.map Event.kind := by
  intro hmem
  obtain ⟨f, hf, hk⟩ := List.mem_map.mp hmem
  exact (h.mem hf).2.2 hk

/-- No end is told in an opening. -/
theorem end_notMem (h : Opening id s l) {e : Event} (he : e.isTerminal = true) :
    e.kind ∉ l.map Event.kind := by
  intro hmem
  obtain ⟨f, hf, hk⟩ := List.mem_map.mp hmem
  have hgo := (h.mem hf).2.1
  rw [Event.isTerminal_eq, hk, ← Event.isTerminal_eq, he] at hgo
  cases hgo

/-- Whoever does not wait for data was told that they are there. -/
theorem ready_mem (h : Opening id s l) (hs : s ≠ .blocked) : .ready ∈ l.map Event.kind := by
  induction h with
  | created => exact absurd rfl hs
  | ready => simp [Event.kind]
  | unplaced => simp [Event.kind]
  | assigned key n _ ih =>
    rw [List.map_append]
    exact List.mem_append_left _ (ih nofun)
  | running _ ih => exact ih nofun

/-- Whoever holds capacity was told where. -/
theorem assigned_mem (h : Opening id s l) (hs : s.holdsCapacity = true) :
    .assigned ∈ l.map Event.kind := by
  induction h with
  | assigned key n _ _ => simp [Event.kind]
  | running _ ih => exact ih rfl
  | _ => cases hs

/-- No kind is told twice. -/
theorem nodup (h : Opening id s l) : (l.map Event.kind).Nodup := by
  induction h with
  | created => exact List.nodup_cons.mpr ⟨List.not_mem_nil, .nil⟩
  | ready => simp [Event.kind]
  | unplaced => simp [Event.kind]
  | assigned key n h _ => cases h <;> simp [Event.kind]
  | running _ ih => exact ih

/-- A ready action's opening speaks of workers last. -/
theorem ready_mem_before (h : Opening id s l) {l₁ l₂ : List Event} {e : Event}
    (hl : l = l₁ ++ e :: l₂) (he : e.kind = .noEligibleResource ∨ e.kind = .assigned) :
    .ready ∈ l₁.map Event.kind := by
  induction h generalizing l₁ l₂ with
  | created =>
    rcases l₁ with _ | ⟨a, l₁⟩ <;> simp at hl
    rw [← hl.1] at he
    rcases he with he | he <;> cases he
  | ready =>
    rcases l₁ with _ | ⟨a, _ | ⟨b, l₁⟩⟩ <;> simp at hl
    · rw [← hl.1] at he
      rcases he with he | he <;> cases he
    · rw [← hl.2.1] at he
      rcases he with he | he <;> cases he
  | unplaced =>
    rcases l₁ with _ | ⟨a, _ | ⟨b, l₁⟩⟩ <;> simp at hl
    · rw [← hl.1] at he
      rcases he with he | he <;> cases he
    · rw [← hl.2.1] at he
      rcases he with he | he <;> cases he
    · rw [← hl.2.1]
      simp [Event.kind]
  | assigned key n h ih =>
    rcases append_cons_cases hl with ⟨k, hk⟩ | ⟨k, rfl, -⟩
    · exact ih hk
    · rw [List.map_append]
      exact List.mem_append_left _ (h.ready_mem nofun)
  | running _ ih => exact ih hl

/-- The events of a whole life come in order. -/
theorem regular_append (h : Opening id s l) {ending : Ending} (suits : ending.suits s = true) :
    Regular (l ++ ending.events id) := by
  rw [Ending.events_eq]
  have hlast := ending.isTerminal_last id
  have hval {e : Event} (he : e ∈ ending.values.map (Event.valueProduced id)) :
      e.kind = .valueProduced ∧ e.isTerminal = false := by
    obtain ⟨v, -, rfl⟩ := List.mem_map.mp he
    exact ⟨rfl, rfl⟩
  -- an event after the opening is a value or the end
  have hend {e : Event} {k l₂ : List Event}
      (hk : ending.values.map (Event.valueProduced id) ++ [ending.last id] = k ++ e :: l₂) :
      e.kind = .valueProduced ∧ e.isTerminal = false ∨ e = ending.last id ∧ l₂ = [] := by
    rcases append_cons_cases hk with ⟨k', hk'⟩ | ⟨k', rfl, hk'⟩
    · exact .inl (hval (hk' ▸ List.mem_append_right k List.mem_cons_self))
    · rcases k' with _ | ⟨a, k'⟩ <;> simp at hk'
      exact .inr ⟨hk'.1.symm, hk'.2⟩
  refine ⟨?_, fun {l₁ e l₂} hl he => ?_, fun {l₁ e l₂} hl he => ?_, fun {l₁ e l₂} hl he => ?_⟩
  · have hnone : ((ending.values.map (Event.valueProduced id)).map Event.kind).filter
        (· ≠ .valueProduced) = [] := by
      refine List.filter_eq_nil_iff.mpr fun k hk => ?_
      obtain ⟨e, he, rfl⟩ := List.mem_map.mp hk
      simp [(hval he).1]
    rw [List.map_append, List.map_append, List.filter_append, List.filter_append, hnone,
      List.nil_append]
    refine List.nodup_append.mpr ⟨h.nodup.filter _, ?_, fun k hk k' hk' => ?_⟩
    · exact (List.nodup_cons.mpr ⟨List.not_mem_nil, .nil⟩).filter _
    · rintro rfl
      have hk'' := List.mem_singleton.mp (List.mem_filter.mp hk').1
      exact h.end_notMem hlast (hk'' ▸ (List.mem_filter.mp hk).1)
  · rcases append_cons_cases hl with ⟨k, hk⟩ | ⟨k, -, hk⟩
    · exact h.ready_mem_before hk he
    · rcases hend hk with ⟨hv, -⟩ | ⟨rfl, -⟩
      · rw [hv] at he
        rcases he with he | he <;> cases he
      · rw [Event.isTerminal_eq] at hlast
        rcases he with he | he <;> simp [he] at hlast
  · rcases append_cons_cases hl with ⟨k, rfl⟩ | ⟨k, rfl, hk⟩
    · obtain ⟨-, hgo, hno⟩ := h.mem (List.mem_append_right l₁ List.mem_cons_self)
      rcases he with he | he
      · exact absurd he hno
      · rw [Event.isTerminal_eq, he] at hgo
        simp at hgo
    · rw [List.map_append]
      refine List.mem_append_left _ (h.assigned_mem ?_)
      cases ending with
      | completed outputs => exact suits
      | _ =>
        rcases k with _ | ⟨a, k⟩ <;> simp [Ending.values, Ending.last] at hk
        rw [← hk.1] at he
        rcases he with he | he <;> cases he
  · rcases append_cons_cases hl with ⟨k, rfl⟩ | ⟨k, -, hk⟩
    · rw [(h.mem (List.mem_append_right l₁ List.mem_cons_self)).2.1] at he
      cases he
    · rcases hend hk with ⟨-, hgo⟩ | ⟨-, hnil⟩
      · rw [hgo] at he
        cases he
      · exact hnil

/-- The events of an opening come in order. -/
theorem regular (h : Opening id s l) : Regular l :=
  Regular.mono (h.regular_append (rfl : Ending.cancelled.suits s = true))
    (List.prefix_append _ _)

end Opening

/-! ## Entries and what they told -/

namespace Entry

/-- An entry is where the events of a list lead, and knows which kinds were told. -/
structure Follows (x : Entry) (id : Nat) (l : List Event) : Prop where
  /-- The events lead to its state. -/
  opening : Opening id x.state l
  /-- Their kinds are what it told. -/
  told : ∀ k, k ∈ x.told ↔ k ∈ l.map Event.kind

/-- What an entry puts into the outbox if it is to tell an event. -/
def news (x : Entry) (e : Event) : List (Monitor × Event) :=
  if e.kind ∈ x.told then [] else [(x.monitor, e)]

variable {x : Entry} {e : Event} {id : Nat} {l : List Event}

theorem events_emit (x : Entry) (e : Event) (o : Outbox) :
    (x.emit e o).2.events = o.events ++ x.news e := by
  unfold emit news
  split
  · exact (List.append_nil _).symm
  · rfl

theorem monitor_emit (x : Entry) (e : Event) (o : Outbox) :
    (x.emit e o).1.monitor = x.monitor := by
  unfold emit
  split <;> rfl

theorem state_emit (x : Entry) (e : Event) (o : Outbox) : (x.emit e o).1.state = x.state :=
  congrArg Standing.state (standing_emit x e o)

theorem mem_news {n : Monitor × Event} (h : n ∈ x.news e) : n = (x.monitor, e) := by
  unfold news at h
  split at h
  · cases h
  · exact List.mem_singleton.mp h

/-- A kind that was not told yet is told, and remembered unless it is a value. -/
theorem emit_of_notMem (h : e.kind ∉ x.told) (o : Outbox) :
    x.news e = [(x.monitor, e)] ∧ ∀ k, k ∈ (x.emit e o).1.told ↔
      k ∈ x.told ∨ k = e.kind ∧ e.kind ≠ .valueProduced := by
  refine ⟨if_neg h, fun k => ?_⟩
  unfold emit
  rw [if_neg h]
  dsimp only
  split
  · next hv => simp [hv]
  · next hv => simp [hv, or_comm]

/-- A kind that was told is told no more. -/
theorem emit_of_mem (h : e.kind ∈ x.told) (o : Outbox) :
    x.news e = [] ∧ (x.emit e o).1 = x := by
  refine ⟨if_pos h, ?_⟩
  unfold emit
  rw [if_pos h]

/-- An entry in a new state tells the event that leads there. -/
theorem Follows.emit {s : ActionState} (h : x.Follows id l) (y : Entry) (e : Event)
    (told : y.told = x.told) (state : y.state = s) (opening : Opening id s (l ++ [e]))
    (hnew : e.kind ∉ l.map Event.kind) (o : Outbox) :
    y.news e = [(y.monitor, e)] ∧ (y.emit e o).1.Follows id (l ++ [e]) := by
  have hval : e.kind ≠ .valueProduced :=
    (opening.mem (List.mem_append_right l List.mem_cons_self)).2.2
  have hnot : e.kind ∉ y.told := by
    rw [told, h.told]
    exact hnew
  obtain ⟨hnews, hemit⟩ := emit_of_notMem hnot o
  refine ⟨hnews, ?_, fun k => ?_⟩
  · rw [state_emit, state]
    exact opening
  · rw [hemit, told, h.told, List.map_append, List.mem_append, List.map_singleton,
      List.mem_singleton]
    exact or_congr_right (and_iff_left hval)

/-- Events that are told one after the other are those of a list, all for one monitor. -/
theorem mem_foldl_emit (l : List Event) (x : Entry) (o : Outbox) {n : Monitor × Event}
    (h : n ∈ (l.foldl (fun r e => Entry.emit r.1 e r.2) (x, o)).2.events) :
    n ∈ o.events ∨ n.2 ∈ l := by
  induction l generalizing x o with
  | nil => exact .inl h
  | cons e l ih =>
    rcases ih (x.emit e o).1 (x.emit e o).2 h with h | h
    · rw [events_emit] at h
      rcases List.mem_append.mp h with h | h
      · exact .inl h
      · exact .inr (by rw [mem_news h]; exact List.mem_cons_self)
    · exact .inr (List.mem_cons_of_mem e h)

/-- Values are all told. -/
theorem foldl_emit_values (hval : .valueProduced ∉ x.told) (outputs : List ProducedValue)
    (o : Outbox) :
    (outputs.map (Event.valueProduced id)).foldl (fun r e => Entry.emit r.1 e r.2) (x, o) =
      (x, { o with events := o.events ++
        (outputs.map (Event.valueProduced id)).map (Prod.mk x.monitor) }) := by
  induction outputs generalizing o with
  | nil => simp
  | cons v outputs ih =>
    have hone : x.emit (.valueProduced id v) o =
        (x, { o with events := o.events ++ [(x.monitor, .valueProduced id v)] }) := by
      unfold emit
      exact if_neg hval
    rw [List.map_cons, List.foldl_cons]
    show List.foldl _ (x.emit (.valueProduced id v) o) _ = _
    rw [hone, ih]
    simp

/-- An entry that ends tells all of its end. -/
theorem Follows.events_foldl_emit (h : x.Follows id l) (ending : Ending) (o : Outbox) :
    ((ending.events id).foldl (fun r e => Entry.emit r.1 e r.2) (x, o)).2.events =
      o.events ++ (ending.events id).map (Prod.mk x.monitor) := by
  have hval : .valueProduced ∉ x.told := fun hk => h.opening.value_notMem ((h.told _).mp hk)
  have hend := ending.isTerminal_last id
  have hlast : (ending.last id).kind ∉ x.told := fun hk =>
    h.opening.end_notMem hend ((h.told _).mp hk)
  rw [Ending.events_eq, List.foldl_append, foldl_emit_values hval, List.map_append,
    ← List.append_assoc]
  show (Entry.emit x (ending.last id) _).2.events = _
  rw [events_emit, (emit_of_notMem hlast o).1]
  rfl

end Entry

/-! ## Operations and what they tell -/

/-- What is told about an action. -/
def about (id : Nat) (es : List (Monitor × Event)) : List (Monitor × Event) :=
  es.filter fun x => x.2.action = id

@[simp] theorem about_append (id : Nat) (es fs : List (Monitor × Event)) :
    about id (es ++ fs) = about id es ++ about id fs := List.filter_append ..

theorem about_eq_nil {id : Nat} {es : List (Monitor × Event)}
    (h : ∀ x ∈ es, x.2.action ≠ id) : about id es = [] :=
  List.filter_eq_nil_iff.mpr fun x hx he => h x hx (of_decide_eq_true he)

theorem about_map {id : Nat} {l : List Event} (h : ∀ e ∈ l, e.action = id) (m : Monitor) :
    about id (l.map (Prod.mk m)) = l.map (Prod.mk m) := by
  refine List.filter_eq_self.mpr fun x hx => ?_
  obtain ⟨e, he, rfl⟩ := List.mem_map.mp hx
  exact decide_eq_true (h e he)

namespace Schedule

/-- From one table to another, a live action goes on, and `es` is what is told meanwhile. -/
inductive Leads (s t : Schedule) (es : List (Monitor × Event)) (id : Nat) : Prop where
  /-- There is no such action, before or after. -/
  | aside (before : s.actions.get? id = none) (after : t.actions.get? id = none)
      (told : about id es = [])
  /-- Its monitor is told what leads from the one entry to the other. -/
  | on {x y : Entry} (before : s.actions.get? id = some x) (after : t.actions.get? id = some y)
      (monitor : y.monitor = x.monitor)
      (goes : ∀ l, x.Follows id l → ∃ new, about id es = new.map (Prod.mk x.monitor) ∧
        y.Follows id (l ++ new))

variable {s t u : Schedule} {es fs : List (Monitor × Event)} {id : Nat} {o o' o'' : Outbox}

/-- An action that is as it was, and about which nothing is told. -/
theorem Leads.same (h : t.actions.get? id = s.actions.get? id) (told : about id es = []) :
    Leads s t es id := by
  cases hx : s.actions.get? id with
  | none => exact .aside hx (h.trans hx) told
  | some x =>
    exact .on hx (h.trans hx) rfl fun l hl => ⟨[], told, by rw [List.append_nil]; exact hl⟩

theorem Leads.trans (h : Leads s t es id) (h' : Leads t u fs id) : Leads s u (es ++ fs) id := by
  cases h with
  | aside before after told =>
    cases h' with
    | aside _ gone told' => exact .aside before gone (by rw [about_append, told, told']; rfl)
    | on live => rw [after] at live; cases live
  | @on x y before after monitor goes =>
    cases h' with
    | aside gone => rw [after] at gone; cases gone
    | @on y' z live last monitor' goes' =>
      rw [after] at live
      obtain rfl := Option.some_inj.mp live
      refine .on before last (monitor'.trans monitor) fun l hl => ?_
      obtain ⟨new, hnew, hy⟩ := goes l hl
      obtain ⟨new', hnew', hz⟩ := goes' _ hy
      refine ⟨new ++ new', ?_, List.append_assoc l new new' ▸ hz⟩
      rw [about_append, hnew, hnew', monitor, List.map_append]

/-- From one table and outbox to another, live actions go on and this is told, but no end is. -/
def Advances (s : Schedule) (o : Outbox) (t : Schedule) (o' : Outbox) : Prop :=
  ∃ es, o'.events = o.events ++ es ∧ (∀ x ∈ es, x.2.isTerminal = false) ∧ ∀ id, Leads s t es id

theorem Advances.refl (s : Schedule) (o : Outbox) : Advances s o s o :=
  ⟨[], (List.append_nil _).symm, List.forall_mem_nil _, fun _ => .same rfl rfl⟩

theorem Advances.trans (h : Advances s o t o') (h' : Advances t o' u o'') :
    Advances s o u o'' := by
  obtain ⟨es, he, hgo, hl⟩ := h
  obtain ⟨fs, hf, hgo', hl'⟩ := h'
  refine ⟨es ++ fs, by rw [hf, he, List.append_assoc], fun x hx => ?_, fun id =>
    (hl id).trans (hl' id)⟩
  exact (List.mem_append.mp hx).elim (hgo x) (hgo' x)

/-- One entry is replaced, and this is told about it. -/
theorem advances_of_insert {x y : Entry} (es : List (Monitor × Event))
    (hx : s.actions.get? id = some x) (ht : t.actions = s.actions.insert id y)
    (monitor : y.monitor = x.monitor)
    (ho : o'.events = o.events ++ es) (hes : ∀ n ∈ es, n.2.action = id ∧ n.2.isTerminal = false)
    (goes : ∀ l, x.Follows id l → ∃ new, es = new.map (Prod.mk x.monitor) ∧
      y.Follows id (l ++ new)) : Advances s o t o' := by
  refine ⟨es, ho, fun n hn => (hes n hn).2, fun i => ?_⟩
  by_cases hi : i = id
  · subst hi
    refine .on hx (by rw [ht, SortedMap.get?_insert_self]) monitor fun l hl => ?_
    obtain ⟨new, hnew, hy⟩ := goes l hl
    exact ⟨new, (List.filter_eq_self.mpr fun n hn => decide_eq_true (hes n hn).1).trans hnew, hy⟩
  · refine .same (by rw [ht, SortedMap.get?_insert_of_ne _ _ hi]) (about_eq_nil fun n hn he => ?_)
    exact hi (he.symm.trans (hes n hn).1)

/-! ### Waking and running -/

theorem advances_wakeOne (name : String) (s : Schedule) (o : Outbox) (id : Nat) :
    Advances s o (wakeOne name s o id).1 (wakeOne name s o id).2 := by
  unfold wakeOne
  cases hx : s.actions.get? id with
  | none => exact .refl s o
  | some x =>
    dsimp only
    split
    · next hc =>
      refine advances_of_insert _ hx rfl (Entry.monitor_emit _ _ _) (Entry.events_emit _ _ _)
        (fun n hn => by rw [Entry.mem_news hn]; exact ⟨rfl, rfl⟩) fun l hl => ?_
      have hopen := hl.opening
      rw [hc.2] at hopen
      cases hopen
      obtain ⟨hnews, hy⟩ := hl.emit { x with missing := x.missing.erase name, state := .ready }
        (.ready id) rfl rfl .ready (by simp [Event.kind]) o
      exact ⟨[.ready id], hnews, hy⟩
    · refine advances_of_insert [] hx rfl rfl (List.append_nil _).symm
        (List.forall_mem_nil _) fun l hl => ⟨[], rfl, ?_⟩
      rw [List.append_nil]
      exact ⟨hl.opening, hl.told⟩

/-- When a name wakes, actions that become ready tell that. -/
theorem advances_wake (s : Schedule) (name : String) :
    Advances s {} (s.wake name).1 (s.wake name).2 := by
  unfold wake
  split
  · exact .refl s {}
  · next waiting _ =>
    refine List.foldlRecOn (motive := fun r : Schedule × Outbox => Advances s {} r.1 r.2)
      waiting.toList _ ?_ fun r hr id _ => hr.trans (advances_wakeOne name r.1 r.2 id)
    exact ⟨[], rfl, List.forall_mem_nil _, fun _ => .same rfl rfl⟩

/-- Whoever tells something when a name wakes is newly ready. -/
theorem ready_of_mem_wakeOne {r : Schedule × Outbox} (hs : r.1.Sound)
    (hsub : ∀ i ∈ s.ready, i ∈ r.1.ready)
    (hnew : ∀ n ∈ r.2.events, n.2.action ∈ r.1.ready ∧ n.2.action ∉ s.ready) (name : String)
    (id : Nat) :
    (∀ i ∈ s.ready, i ∈ (wakeOne name r.1 r.2 id).1.ready) ∧
      ∀ n ∈ (wakeOne name r.1 r.2 id).2.events,
        n.2.action ∈ (wakeOne name r.1 r.2 id).1.ready ∧ n.2.action ∉ s.ready := by
  unfold wakeOne
  cases hx : r.1.actions.get? id with
  | none => exact ⟨hsub, hnew⟩
  | some x =>
    dsimp only
    split
    · next hc =>
      refine ⟨fun i hi => SortedSet.mem_insert.mpr (.inr (hsub i hi)), fun n hn => ?_⟩
      dsimp only at hn ⊢
      rw [Entry.events_emit] at hn
      rcases List.mem_append.mp hn with hn | hn
      · exact ⟨SortedSet.mem_insert.mpr (.inr (hnew n hn).1), (hnew n hn).2⟩
      · rw [Entry.mem_news hn]
        refine ⟨SortedSet.mem_insert.mpr (.inl rfl), fun hid => ?_⟩
        obtain ⟨y, hy, hready⟩ := hs.ready_iff.mp (hsub id hid)
        obtain ⟨x', hx', rfl⟩ := standing?_eq_some_iff.mp hy
        rw [hx] at hx'
        obtain rfl := Option.some_inj.mp hx'
        have hblocked : x.standing.state = .blocked := hc.2
        rw [hready] at hblocked
        cases hblocked
    · exact ⟨hsub, hnew⟩

/-- Where nobody becomes ready nothing is told. -/
theorem events_wake_of_ready_eq (hs : s.Sound) {name : String}
    (h : (s.wake name).1.ready = s.ready) : (s.wake name).2.events = [] := by
  have hall : ∀ n ∈ (s.wake name).2.events,
      n.2.action ∈ (s.wake name).1.ready ∧ n.2.action ∉ s.ready := by
    unfold wake
    split
    · exact fun n hn => by cases hn
    · next waiting _ =>
      refine (List.foldlRecOn (motive := fun r : Schedule × Outbox => r.1.Sound ∧
        (∀ i ∈ s.ready, i ∈ r.1.ready) ∧
        ∀ n ∈ r.2.events, n.2.action ∈ r.1.ready ∧ n.2.action ∉ s.ready) waiting.toList _ ?_
        fun r hr id _ => ⟨sound_wakeOne hr.1 name r.2 id,
          ready_of_mem_wakeOne hr.1 hr.2.1 hr.2.2 name id⟩).2.2
      exact ⟨⟨hs.named, hs.old, hs.ready_iff, hs.bound_iff⟩, fun _ hi => hi,
        List.forall_mem_nil _⟩
  refine List.eq_nil_iff_forall_not_mem.mpr fun n hn => ?_
  exact (hall n hn).2 (h ▸ (hall n hn).1)

/-- An action that is being executed tells nothing of it. -/
theorem advances_markRunning (h : s.markRunning? id = some t) : Advances s {} t {} := by
  unfold markRunning? at h
  obtain ⟨x, hx, h⟩ := Option.bind_eq_some_iff.mp h
  split at h
  · next hholds =>
    cases h
    refine advances_of_insert [] hx rfl rfl rfl (List.forall_mem_nil _)
      fun l hl => ⟨[], rfl, ?_⟩
    rw [List.append_nil]
    refine ⟨?_, hl.told⟩
    have hopen := hl.opening
    generalize x.state = state at hopen hholds
    cases hopen with
    | assigned key n h => exact .running (.assigned key n h)
    | running h => exact .running h
    | _ => cases hholds
  · cases h

/-! ### Beginnings and ends -/

/-- After an operation that tells `es` there is an action, whose monitor is told how it came to
be. -/
def Begins (t : Schedule) (es : List (Monitor × Event)) (id : Nat) (m : Monitor) : Prop :=
  ∃ y new, t.actions.get? id = some y ∧ y.monitor = m ∧ about id es = new.map (Prod.mk m) ∧
    y.Follows id new

/-- From one table to another an action ends, and `es` is what is told meanwhile. -/
def Ends (s t : Schedule) (es : List (Monitor × Event)) (id : Nat) (ending : Ending) : Prop :=
  ∃ x, s.actions.get? id = some x ∧ t.actions.get? id = none ∧ ending.suits x.state = true ∧
    ∀ l, x.Follows id l → about id es = (ending.events id).map (Prod.mk x.monitor)

/-- A submission begins the life of one action, and is nothing to the others. -/
theorem begins_accept (s : Schedule) (c : Catalog) (task : Submission) (m : Monitor) :
    (∀ x ∈ (s.accept c task m).2.2.events, x.2.isTerminal = false) ∧
      Begins (s.accept c task m).2.1 (s.accept c task m).2.2.events s.nextId m ∧
      ∀ id ≠ s.nextId,
        Leads s (s.accept c task m).2.1 (s.accept c task m).2.2.events id := by
  have hother {t : Schedule} {es : List (Monitor × Event)} {y : Entry} {id : Nat}
      (hid : id ≠ s.nextId) (ht : t.actions = s.actions.insert s.nextId y)
      (hes : ∀ x ∈ es, x.2.action = s.nextId) : Leads s t es id :=
    .same (by rw [ht, SortedMap.get?_insert_of_ne _ _ hid]) <|
      about_eq_nil fun x hx he => hid (he.symm.trans (hes x hx))
  unfold accept
  dsimp only
  split
  · refine ⟨?_, ⟨_, [.created s.nextId, .ready s.nextId], SortedMap.get?_insert_self .., rfl, ?_,
      .ready, ?_⟩, fun id hid => hother hid rfl ?_⟩
    · simp [Entry.emit, Event.kind, Event.isTerminal]
    · simp [Entry.emit, Event.kind, about, Event.action]
    · simp [Entry.emit, Event.kind, or_comm]
    · simp [Entry.emit, Event.kind, Event.action]
  · refine ⟨?_, ⟨_, [.created s.nextId], SortedMap.get?_insert_self .., rfl, ?_, .created, ?_⟩,
      fun id hid => hother hid rfl ?_⟩
    · simp [Entry.emit, Event.kind, Event.isTerminal]
    · simp [Entry.emit, Event.kind, about, Event.action]
    · simp [Entry.emit, Event.kind]
    · simp [Entry.emit, Event.kind, Event.action]

theorem events_releaseBinding (p : Pool) (x : Entry) :
    (releaseBinding p x {}).2.events = [] := by
  unfold releaseBinding
  split
  · rfl
  · split <;> rfl

/-- An action that is concluded ends, and this is nothing to the others. -/
theorem ends_conclude {x : Entry} (live : s.actions.get? id = some x) (named : x.action.id = id)
    (p : Pool) {ending : Ending} (suits : ending.suits x.state = true) :
    Ends s (s.conclude p x (ending.events id) ending.state).1
        (s.conclude p x (ending.events id) ending.state).2.2.events id ending ∧
      (∀ n ∈ (s.conclude p x (ending.events id) ending.state).2.2.events, n.2.action = id) ∧
      ∀ i ≠ id, Leads s (s.conclude p x (ending.events id) ending.state).1
        (s.conclude p x (ending.events id) ending.state).2.2.events i := by
  have hactions := (conclude_frame s p x (ending.events id) ending.state).1
  rw [named] at hactions
  have hevents : (s.conclude p x (ending.events id) ending.state).2.2.events =
      ((ending.events id).foldl (fun r e => Entry.emit r.1 e r.2)
        (x, (releaseBinding p x {}).2)).2.events := rfl
  have hmem : ∀ n ∈ (s.conclude p x (ending.events id) ending.state).2.2.events,
      n.2.action = id := by
    intro n hn
    rw [hevents] at hn
    rcases Entry.mem_foldl_emit _ _ _ hn with hn | hn
    · rw [events_releaseBinding] at hn
      cases hn
    · exact Ending.action_of_mem hn
  refine ⟨⟨x, live, by rw [hactions, SortedMap.get?_erase_self], suits, fun l hl => ?_⟩, hmem,
    fun i hi => .same (by rw [hactions, SortedMap.get?_erase_of_ne _ hi])
      (about_eq_nil fun n hn he => hi (he.symm.trans (hmem n hn)))⟩
  rw [hevents, hl.events_foldl_emit, events_releaseBinding, List.nil_append]
  exact about_map (fun _ => Ending.action_of_mem) x.monitor

/-- From one table to another, one of the actions `ids` that are bound to a lost worker ends, or
nothing happens to the action and nothing is told about it. -/
def EndsLost (key : WorkerKey) (ids : List Nat) (s t : Schedule) (es : List (Monitor × Event))
    (id : Nat) : Prop :=
  t.actions.get? id = s.actions.get? id ∧ about id es = [] ∨
    id ∈ ids ∧ s.bindingOf? id = some key ∧ Ends s t es id (.failed .nodeLost)

variable {key : WorkerKey} {ids : List Nat}

theorem EndsLost.trans (h : EndsLost key ids s t es id) (h' : EndsLost key ids t u fs id) :
    EndsLost key ids s u (es ++ fs) id := by
  unfold EndsLost Ends
  rw [about_append]
  rcases h with ⟨hsame, hnil⟩ | ⟨hid, hbound, x, hx, hgone, hsuits, htold⟩
  · rw [hnil, List.nil_append]
    rcases h' with ⟨hsame', hnil'⟩ | ⟨hid, hbound, x, hx, hrest⟩
    · exact .inl ⟨hsame'.trans hsame, hnil'⟩
    · refine .inr ⟨hid, ?_, x, hsame ▸ hx, hrest⟩
      rw [bindingOf?, ← hsame]
      exact hbound
  · rcases h' with ⟨hsame', hnil'⟩ | ⟨-, -, x', hx', -⟩
    · exact .inr ⟨hid, hbound, x, hx, hsame'.trans hgone, hsuits, fun l hl => by
        rw [hnil', List.append_nil, htold l hl]⟩
    · rw [hgone] at hx'
      cases hx'

theorem endsLost_abandonOne (s : Schedule) (o : Outbox) (hid : id ∈ ids) :
    ∃ es, (abandonOne key s o id).2.events = o.events ++ es ∧
      ∀ i, EndsLost key ids s (abandonOne key s o id).1 es i := by
  have hnone : ∃ es, o.events = o.events ++ es ∧ ∀ i, EndsLost key ids s s es i :=
    ⟨[], (List.append_nil _).symm, fun _ => .inl ⟨rfl, rfl⟩⟩
  unfold abandonOne
  cases hx : s.actions.get? id with
  | none => exact hnone
  | some x =>
    dsimp only
    split
    · next hbound =>
      refine ⟨_, Entry.events_emit x _ o, fun i => ?_⟩
      unfold EndsLost Ends
      rw [actions_remember]
      by_cases hi : i = id
      · subst hi
        refine .inr ⟨hid, ?_, x, hx, SortedMap.get?_erase_self .., rfl, fun l hl => ?_⟩
        · rw [bindingOf?, hx]
          exact hbound
        · have hnew : Event.Kind.failed ∉ x.told := fun hk =>
            hl.opening.end_notMem (e := .failed i .nodeLost) rfl ((hl.told _).mp hk)
          rw [(Entry.emit_of_notMem (e := .failed i .nodeLost) hnew o).1]
          exact about_map (l := [.failed i .nodeLost]) (by simp [Event.action]) x.monitor
      · refine .inl ⟨SortedMap.get?_erase_of_ne _ hi, about_eq_nil fun n hn he => ?_⟩
        rw [Entry.mem_news hn] at he
        exact hi he.symm
    · exact hnone

/-- The actions that are bound to a lost worker end, and this is nothing to the others. -/
theorem endsLost_abandon (s : Schedule) (key : WorkerKey) (ids : List Nat) (i : Nat) :
    EndsLost key ids s (s.abandon key ids).1 (s.abandon key ids).2.events i := by
  have hfold : ∃ es, (s.abandon key ids).2.events = [] ++ es ∧
      ∀ i, EndsLost key ids s (s.abandon key ids).1 es i :=
    List.foldlRecOn (motive := fun r : Schedule × Outbox => ∃ es, r.2.events = [] ++ es ∧
      ∀ i, EndsLost key ids s r.1 es i) ids _ ⟨[], rfl, fun _ => .inl ⟨rfl, rfl⟩⟩
      fun r ⟨es, he, hr⟩ id hid => by
        obtain ⟨fs, hf, hr'⟩ := endsLost_abandonOne r.1 r.2 hid
        exact ⟨es ++ fs, by rw [hf, he, List.append_assoc], fun i => (hr i).trans (hr' i)⟩
  obtain ⟨es, he, hr⟩ := hfold
  rw [he]
  exact hr i

end Schedule

namespace Pass

open Schedule (Advances)

variable {p q : Pass}

/-- What a pass tells, and where it brings the actions; nothing happens to it from outside. -/
structure Goes (p q : Pass) : Prop where
  /-- Live actions go on. -/
  advances : Advances p.schedule p.outbox q.schedule q.outbox
  /-- No disturbance is answered and nobody leaves. -/
  incidents : q.incidents = p.incidents

theorem Goes.trans {r : Pass} (h : p.Goes q) (h' : q.Goes r) : p.Goes r :=
  ⟨h.advances.trans h'.advances, h'.incidents.trans h.incidents⟩

/-- A ready action that is bound tells where. -/
theorem goes_bind {x : Candidate} {e : Entry} (he : p.schedule.actions.get? x.action.id = some e)
    (hready : e.state = .ready) (free : Capacity) (pool : Pool) : p.Goes (p.bind x free pool) := by
  unfold bind
  dsimp only
  rw [he]
  refine ⟨Schedule.advances_of_insert _ he rfl (Entry.monitor_emit _ _ _) (Entry.events_emit _ _ _)
    (fun n hn => by rw [Entry.mem_news hn]; exact ⟨rfl, rfl⟩) fun l hl => ?_, rfl⟩
  have hopen := hl.opening
  rw [hready] at hopen
  obtain ⟨hnews, hy⟩ := hl.emit { e with state := .assigned, binding := some x.view.key }
    (.assigned x.action.id x.view.key x.index) rfl rfl (hopen.assigned _ _)
    (by cases hopen <;> simp [Event.kind]) p.outbox
  exact ⟨[.assigned x.action.id x.view.key x.index], hnews, hy⟩

/-- The steps of a steady pass bind ready actions. -/
theorem goes_steps (policy : Policy) (n : Nat) (h : p.Steady) :
    p.Goes (steps policy n p) ∧ (steps policy n p).Steady := by
  induction n generalizing p with
  | zero => exact ⟨⟨.refl _ _, rfl⟩, h⟩
  | succ n ih =>
    have hbest := best?_of_calm policy h.calm
    have hscored : p.Goes (p.best? policy).1 := by
      rw [hbest]
      exact ⟨.refl _ _, rfl⟩
    unfold steps
    cases hx : (p.best? policy).2 with
    | none =>
      rw [step_of_best?_eq_none hx]
      refine ⟨hscored, ?_⟩
      dsimp only
      rw [hbest]
      exact ⟨h.calm, h.sound, h.mem_views, h.unheld⟩
    | some x =>
      obtain ⟨y, free, pool, hq, -, hact, hb, hs⟩ := step_of_steady h hx
      obtain ⟨e, he, hey⟩ := Schedule.standing?_eq_some_iff.mp hb.live
      have hbound : (p.best? policy).1.Goes ((p.best? policy).1.bind x free pool) := by
        refine goes_bind (e := e) ?_ ((congrArg Standing.state hey).trans hb.state) free pool
        rw [hbest, ← hact]
        exact he
      obtain ⟨hgoes, hsteady⟩ := ih hs
      rw [hq]
      exact ⟨hscored.trans (hbound.trans hgoes), hsteady⟩

/-- A ready action that no worker could ever carry out tells so, once. -/
theorem advances_reportOne (views : List WorkerView) {s : Schedule} (o : Outbox) {id : Nat}
    (hready : ∀ x, s.actions.get? id = some x → x.state = .ready) :
    Advances s o (reportOne views s o id).1 (reportOne views s o id).2 := by
  unfold reportOne
  cases hx : s.actions.get? id with
  | none => exact .refl s o
  | some x =>
    dsimp only
    split
    · exact .refl s o
    · refine Schedule.advances_of_insert _ hx rfl (Entry.monitor_emit _ _ _)
        (Entry.events_emit _ _ _)
        (fun n hn => by rw [Entry.mem_news hn]; exact ⟨rfl, rfl⟩) fun l hl => ?_
      have hopen := hl.opening
      rw [hready x hx] at hopen
      cases hopen with
      | ready =>
        obtain ⟨hnews, hy⟩ := hl.emit x (.noEligibleResource id) rfl (hready x hx) .unplaced
          (by simp [Event.kind]) o
        exact ⟨[.noEligibleResource id], hnews, hy⟩
      | unplaced =>
        have htold : (Event.noEligibleResource id).kind ∈ x.told :=
          (hl.told _).mpr (by simp [Event.kind])
        obtain ⟨hnews, hy⟩ := Entry.emit_of_mem htold o
        exact ⟨[], hnews, by rw [hy, List.append_nil]; exact hl⟩

theorem goes_reportIneligible (h : p.schedule.Sound) : p.Goes p.reportIneligible := by
  refine ⟨?_, rfl⟩
  have hfold := List.foldlRecOn (motive := fun r : Schedule × Outbox =>
      Schedule.Restates p.schedule r.1 ∧ Advances p.schedule p.outbox r.1 r.2)
    p.schedule.ready.toList (fun r id => reportOne (accepting p.pool) r.1 r.2 id)
    (b := (p.schedule, p.outbox)) ⟨.refl _, .refl _ _⟩ fun r hr id hid => by
      refine ⟨hr.1.trans (restates_reportOne _ r.1 r.2 id),
        hr.2.trans (advances_reportOne _ r.2 fun x hx => ?_)⟩
      obtain ⟨y, hy, hstate⟩ := h.ready_iff.mp (SortedSet.mem_toList.mp hid)
      have hst := hr.1.standing? id
      rw [hy, Schedule.standing?_eq_some_iff.mpr ⟨x, hx, rfl⟩] at hst
      rw [← hstate, ← Option.some_inj.mp hst]
      rfl
  exact hfold.2

/-- A pass that nothing disturbs binds ready actions and tells this, and which ready actions no
worker could ever carry out. -/
theorem goes_run (policy : Policy) (h : p.Steady) : p.Goes (p.run policy) := by
  obtain ⟨hgoes, hsteady⟩ := goes_steps policy p.bound h
  exact hgoes.trans (goes_reportIneligible hsteady.sound)

end Pass

end TaskGrid
