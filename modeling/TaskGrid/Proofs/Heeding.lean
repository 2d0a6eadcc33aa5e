import TaskGrid.Proofs.CopyProtocol
import TaskGrid.Proofs.Rescues

/-!
# Who heeds the orders of a drained worker

When a worker has finished draining, its record goes to the hooks that were given to it, then to the
listener.  Somebody heeds an order of the record: the sink, if a hook of the agent finds the agent;
a caller, by its own hook; the listener, if it takes the orders over; or the order is logged as an
alarm.  The alarm is left out if any hook was given, whether or not the hook can do something.

So an order is heeded unless all hooks that were given are hooks of the agent, the agent is gone by
the time they are told, and the listener does not take the orders over.  Then nobody hears of it.

* `Moment.Heeds`: an order is heeded at a moment.
* `aftermath`: the moments at which a record is told.
* `Machine.Onward.heeded_iff`: an order is heeded or swallowed, by induction on the hooks.
* `NothingSwallowed`, `Forsaken`: the property, and when it fails.
* `Machine.Course.nothingSwallowed_iff`: the orders of drained workers in every course.
-/

namespace TaskGrid

/-! ## What is heeded -/

/-- What is told at a moment, in order. -/
def Moment.told (x : Moment) : List Notice := x.after.toldSince x.world.told

/-- Whether a listener takes over the orders of those who leave. -/
def World.entrusts (w : World) : Bool := w.listener.any fun l => !l.quiet && l.claims

/-- At a moment somebody sees to the order `o` of the record `r`. -/
inductive Moment.Heeds (x : Moment) (r : RemovedWorker) (o : RescueOrder) : Prop where
  /-- The order is handed to the sink. -/
  | sink (noted : Bool) (orders : List RescueOrder) (told : .handedOver noted orders ∈ x.told)
    (mem : o ∈ orders) : x.Heeds r o
  /-- The record is told to a listener that takes its orders over. -/
  | listener (l : Listener) (listens : x.world.listener = some l) (claims : l.claims = true)
    (told : .removed r ∈ x.told) : x.Heeds r o
  /-- The record is told to the hook of a caller. -/
  | hook (label : String) (told : .hooked (.caller label) r ∈ x.told) : x.Heeds r o
  /-- The order is logged as one that nobody claimed. -/
  | alarm (told : .alarm (.unclaimedRescue r.key.text o) ∈ x.told) : x.Heeds r o

/-- Whether an item is the last one that tells the record of a drained worker. -/
def Item.concludes (r : RemovedWorker) : Item → Bool
  | .tellRemoved r' last => last && decide (r' = r)
  | _ => false

/-- The moments, in order, up to the one at which a record has been told to all. -/
def upToLast (r : RemovedWorker) : List Moment → List Moment
  | [] => []
  | x :: t => if x.item.concludes r then [x] else x :: upToLast r t

/-- Of moments, the latest first, those until a record has been told to all, in order. -/
def aftermath (r : RemovedWorker) (t : List Moment) : List Moment := upToLast r t.reverse

/-- The worker that finishes draining at a moment, as it was until then, and its departure. -/
def Moment.drained? (x : Moment) : Option (Worker × Pool.Departure) :=
  match x.item with
  | .retire .. => x.departure?
  | _ => none

/-- In the moments `t₁` an order of the record `r` is heeded while all are told the record. -/
def Heeded (t₁ : List Moment) (r : RemovedWorker) (o : RescueOrder) : Prop :=
  ∃ y ∈ aftermath r t₁, y.Heeds r o

/-- Of the moments `t`, after `t₀` and before `t₁`, the worker `v` finishes draining at `x`, with
the departure `d`, while there is a sink. -/
structure Drains (t t₁ : List Moment) (x : Moment) (t₀ : List Moment) (v : Worker)
    (d : Pool.Departure) : Prop where
  /-- The moment is one of the moments. -/
  split : t = t₁ ++ x :: t₀
  /-- The worker finishes draining then. -/
  drained : x.drained? = some (v, d)
  /-- There is a sink. -/
  sink : x.world.sink.isSome = true

/-- Every order in the record of a worker that finishes draining is heeded. -/
def NothingSwallowed (t : List Moment) : Prop :=
  ∀ {t₁ x t₀ v d}, Drains t t₁ x t₀ v d → ∀ o ∈ d.removed.rescues, Heeded t₁ d.removed o

/-- After the moments `t₀`, the worker `v` is left to an agent that is gone. -/
structure Forsaken (t₀ : List Moment) (w : World) (v : Worker) : Prop where
  /-- A hook was given to it. -/
  asked : hooksGiven t₀ v.seq ≠ []
  /-- The agent gave all hooks. -/
  agents : ∀ hook ∈ hooksGiven t₀ v.seq, hook = .agent
  /-- The agent was dismissed. -/
  dismissed : ∃ y ∈ t₀, y.item.dismisses = true
  /-- No listener takes orders over. -/
  unclaimed : w.entrusts = false

/-- In the world `w` nobody heeds the orders of a record that these hooks are still to be told. -/
structure World.Swallows (w : World) (hooks : List RemovalHook) (r : RemovedWorker) : Prop where
  /-- The hooks are those of an agent that is gone. -/
  idle : ∀ hook ∈ hooks, hook = .agent ∧ w.agent = none
  /-- The record says that a hook received it. -/
  claimed : r.claimed = true
  /-- No listener takes orders over. -/
  unclaimed : w.entrusts = false

instance (w : World) (hooks : List RemovalHook) (r : RemovedWorker) :
    Decidable (w.Swallows hooks r) :=
  decidable_of_iff
    ((∀ hook ∈ hooks, hook = .agent ∧ w.agent = none) ∧ r.claimed = true ∧ w.entrusts = false)
    ⟨fun h => ⟨h.1, h.2.1, h.2.2⟩, fun h => ⟨h.idle, h.claimed, h.unclaimed⟩⟩

/-- Whether orders of a worker that finishes draining at a moment are swallowed. -/
def Moment.swallows (x : Moment) : Bool :=
  x.world.sink.isSome && x.drained?.any fun r =>
    !r.2.removed.rescues.isEmpty && decide (x.world.Swallows r.1.hooks r.2.removed)

section Aftermath

variable {r : RemovedWorker} {o : RescueOrder}

theorem aftermath_append_singleton (r : RemovedWorker) (t : List Moment) (x : Moment) :
    aftermath r (t ++ [x]) = if x.item.concludes r then [x] else x :: aftermath r t := by
  rw [aftermath, List.reverse_append, List.reverse_singleton, List.singleton_append]
  rfl

/-- An order is heeded at the first moment or later. -/
theorem heeded_append_singleton {t : List Moment} {x : Moment}
    (hx : x.item.concludes r = false) :
    Heeded (t ++ [x]) r o ↔ x.Heeds r o ∨ Heeded t r o := by
  unfold Heeded
  rw [aftermath_append_singleton, if_neg (Bool.eq_false_iff.mp hx)]
  simp

/-- An order is heeded when the record is told last, or not at all. -/
theorem heeded_append_last {t : List Moment} {x : Moment} (hx : x.item.concludes r = true) :
    Heeded (t ++ [x]) r o ↔ x.Heeds r o := by
  unfold Heeded
  rw [aftermath_append_singleton, if_pos hx]
  simp

end Aftermath

/-! ## What is told at a moment -/

namespace Moment

variable {x : Moment} {r : RemovedWorker} {o : RescueOrder}

theorem told_of_log {l : List Notice} (h : x.after.log = l ++ x.world.log) : x.told = l.reverse :=
  World.toldSince_of_log h

/-- What is told is what the item can write. -/
theorem writes_of_mem_told {n : Notice} (h : n ∈ x.told) : x.item.Writes n := by
  obtain ⟨l, hl, hw⟩ := x.world.log_carryOut x.item
  rw [told_of_log hl] at h
  exact hw n (List.mem_reverse.mp h)

/-- No order is heeded where only free capacities, and the hooks of the agent, are told anything. -/
theorem not_heeds_of_writes
    (h : ∀ {n}, x.item.Writes n → (∃ key c, n = .capacity key c) ∨ n = .hooked .agent r) :
    ¬ x.Heeds r o := by
  have htold {n : Notice} (hn : n ∈ x.told) := h (writes_of_mem_told hn)
  intro hheeds
  cases hheeds with
  | sink _ _ told => rcases htold told with ⟨_, _, he⟩ | he <;> cases he
  | listener _ _ _ told => rcases htold told with ⟨_, _, he⟩ | he <;> cases he
  | hook _ told => rcases htold told with ⟨_, _, he⟩ | he <;> cases he
  | alarm told => rcases htold told with ⟨_, _, he⟩ | he <;> cases he

/-- The hook of a caller receives the record. -/
theorem heeds_tellHook_caller (w : World) (label : String) (r : RemovedWorker) (o : RescueOrder) :
    Heeds ⟨w, .tellHook (.caller label) r⟩ r o := by
  refine .hook label ?_
  rw [told_of_log (l := [.hooked (.caller label) r]) rfl]
  exact List.mem_singleton_self _

/-- Where there is a sink, it is handed what the agent hands over. -/
theorem heeds_handOver {w : World} (hsink : w.sink.isSome = true) {orders : List RescueOrder}
    (ho : o ∈ orders) : Heeds ⟨w, .handOver orders⟩ r o := by
  have hlog : ∃ noted, (w.handOver orders).1.log = [.handedOver noted orders] ++ w.log := by
    unfold World.handOver
    split
    · next hnone =>
      rw [hnone] at hsink
      cases hsink
    · exact ⟨true, rfl⟩
    · split
      · next hempty =>
        rw [List.isEmpty_iff.mp hempty] at ho
        cases ho
      · dsimp only
        split <;> exact ⟨false, rfl⟩
  obtain ⟨noted, hlog⟩ := hlog
  refine .sink noted orders ?_ ho
  rw [told_of_log (x := ⟨w, .handOver orders⟩) hlog]
  exact List.mem_singleton_self _

/-- What is told when the listener is told a record last. -/
theorem told_tellRemoved (w : World) (r : RemovedWorker) :
    told ⟨w, .tellRemoved r true⟩ =
      (if (w.listener.any fun l => !l.quiet) = true then [.removed r] else []) ++
        if r.claimed = false ∧ w.entrusts = false then
          r.rescues.map fun o => .alarm (.unclaimedRescue r.key.text o) else [] := by
  have hwritten (l : List Notice) (h : (w.tellRemoved r true).log = (w.noteAll l).log) :
      told ⟨w, .tellRemoved r true⟩ = l := by
    rw [World.noteAll_eq] at h
    rw [told_of_log (x := ⟨w, .tellRemoved r true⟩) h, List.reverse_reverse]
  refine hwritten _ ?_
  unfold World.tellRemoved
  rw [← World.entrusts]
  cases r.claimed <;> cases w.entrusts <;> split <;> simp_all [World.noteAll_eq, World.note]

/-- When the listener is told the record last, it takes its orders over, or they are logged unless
a hook received the record. -/
theorem heeds_tellRemoved_iff {w : World} (ho : o ∈ r.rescues) :
    Heeds ⟨w, .tellRemoved r true⟩ r o ↔ ¬ (r.claimed = true ∧ w.entrusts = false) := by
  constructor
  · rintro h ⟨hclaimed, hidle⟩
    have htold {n : Notice} (hn : n ∈ told ⟨w, .tellRemoved r true⟩) :
        n = .removed r ∧ (w.listener.any fun l => !l.quiet) = true := by
      have hsilent : ¬ (r.claimed = false ∧ w.entrusts = false) := by simp [hclaimed]
      rw [told_tellRemoved, if_neg hsilent, List.append_nil] at hn
      split at hn
      · next hheard => exact ⟨List.mem_singleton.mp hn, hheard⟩
      · cases hn
    cases h with
    | sink _ _ told => cases (htold told).1
    | hook _ told => cases (htold told).1
    | alarm told => cases (htold told).1
    | listener l listens claims told =>
      have hheard := (htold told).2
      unfold World.entrusts at hidle
      rw [listens, Option.any_some] at hheard hidle
      rw [hheard, claims] at hidle
      cases hidle
  · intro h
    cases hentrusts : w.entrusts with
    | true =>
      obtain ⟨l, hl, htakes⟩ := (Option.any_eq_true _ _).mp hentrusts
      rw [Bool.and_eq_true] at htakes
      refine .listener l hl htakes.2 ?_
      rw [told_tellRemoved, if_pos ((Option.any_eq_true _ _).mpr ⟨l, hl, htakes.1⟩)]
      exact List.mem_append_left _ (List.mem_singleton_self _)
    | false =>
      have hclaimed : r.claimed = false := Bool.eq_false_iff.mpr fun hc => h ⟨hc, hentrusts⟩
      refine .alarm ?_
      rw [told_tellRemoved, if_pos (And.intro hclaimed hentrusts)]
      exact List.mem_append_right _ (List.mem_map_of_mem ho)

end Moment

/-! ## From the first hook to the listener -/

/-- What a hook of the agent has done with a drained worker whose data have to be saved. -/
theorem World.tellHook_agent (w : World) {r : RemovedWorker} (hforced : r.forced = false)
    (hr : r.rescues ≠ []) :
    w.tellHook .agent r =
      (w.note (.hooked .agent r), if w.agent.isSome then [.handOver r.rescues] else []) := by
  have hne : r.rescues.isEmpty = false := List.isEmpty_eq_false_iff.mpr hr
  have hagent : (w.note (.hooked .agent r)).agent = w.agent := rfl
  unfold tellHook
  dsimp only
  rw [hagent, hforced, hne]
  cases w.agent <;> rfl

namespace Machine

variable {rule : Conduct} {w : World} {r : RemovedWorker} {o : RescueOrder} {t : List Moment}
  {m : Machine} {rest : List Item}

/-- An order of a record is heeded while hooks and listener are told the record, or else it is
swallowed. -/
theorem Onward.heeded_iff {hooks : List RemovalHook} {key : WorkerKey} {c : Capacity}
    (h : Onward rule ⟨w, hooks.map (fun k => .tellHook k r) ++
      .tellCapacity key c :: .tellRemoved r true :: rest⟩ t m) (hdone : m.agenda = [])
    (hsink : w.sink.isSome = true) (hforced : r.forced = false) (ho : o ∈ r.rescues) :
    Heeded t r o ↔ ¬ w.Swallows hooks r := by
  induction hooks generalizing w t with
  | nil =>
    obtain ⟨t', rfl, hlast⟩ := h.next_of_done rfl hdone
    obtain ⟨t'', rfl, -⟩ := hlast.next_of_done rfl hdone
    have hnot : ¬ Moment.Heeds ⟨w, .tellCapacity key c⟩ r o :=
      Moment.not_heeds_of_writes fun hn => .inl ⟨_, _, hn⟩
    have hconcludes : (Item.tellRemoved r true).concludes r = true := decide_eq_true rfl
    have hentrusts : (w.carryOut (.tellCapacity key c)).1.entrusts = w.entrusts := by
      show (w.report [] [(key, c)]).entrusts = _
      rw [World.entrusts, w.listener_report, World.entrusts]
    rw [heeded_append_singleton rfl, or_iff_right hnot, heeded_append_last hconcludes,
      Moment.heeds_tellRemoved_iff ho, hentrusts]
    exact not_congr ⟨fun hs => ⟨List.forall_mem_nil _, hs.1, hs.2⟩,
      fun hs => ⟨hs.claimed, hs.unclaimed⟩⟩
  | cons hook hooks ih =>
    obtain ⟨t', rfl, hon⟩ := h.next_of_done rfl hdone
    rw [heeded_append_singleton rfl]
    cases hook with
    | caller label =>
      refine iff_of_true (.inl (Moment.heeds_tellHook_caller w label r o)) fun hs => ?_
      cases (hs.idle _ List.mem_cons_self).1
    | agent =>
      have hnot : ¬ Moment.Heeds ⟨w, .tellHook .agent r⟩ r o :=
        Moment.not_heeds_of_writes .inr
      have heffect : w.carryOut (.tellHook .agent r) = _ :=
        w.tellHook_agent hforced (List.ne_nil_of_mem ho)
      rw [or_iff_right hnot]
      cases hagent : w.agent with
      | some s =>
        -- the next item hands the orders over
        rw [heffect, hagent] at hon
        obtain ⟨t'', rfl, -⟩ := hon.next_of_done rfl hdone
        rw [heeded_append_singleton rfl]
        refine iff_of_true (.inl (Moment.heeds_handOver (w := w.note _) hsink ho)) fun hs => ?_
        rw [(hs.idle _ List.mem_cons_self).2] at hagent
        cases hagent
      | none =>
        -- nothing comes of it, and the next hook is told
        rw [heffect, hagent] at hon
        rw [ih hon hsink]
        exact not_congr
          ⟨fun hs => ⟨List.forall_mem_cons.mpr ⟨⟨rfl, hagent⟩, hs.idle⟩, hs.claimed, hs.unclaimed⟩,
            fun hs => ⟨(List.forall_mem_cons.mp hs.idle).2, hs.claimed, hs.unclaimed⟩⟩

end Machine

/-! ## Workers that finish draining -/

namespace Moment

variable {x : Moment} {v : Worker} {d : Pool.Departure}

/-- Who finishes draining is registered, and leaves as it is let leave. -/
theorem eq_of_drained? (h : x.drained? = some (v, d)) :
    ∃ key, x.item = .retire key v.seq ∧ x.world.pool.worker? key = some v ∧
      d = x.world.pool.depart x.world.catalog key v false := by
  unfold drained? at h
  split at h
  · next key seq hitem =>
    have hdeed : x.deed = .retire key seq := by
      unfold deed
      rw [hitem]
    obtain ⟨⟨key', d'⟩, hleft, hd⟩ := Option.bind_eq_some_iff.mp h
    rw [left?_of_retire hdeed] at hleft
    obtain ⟨d'', hretire, he⟩ := Option.map_eq_some_iff.mp hleft
    cases he
    obtain ⟨u, hu, rfl, rfl⟩ := Pool.retire?_eq_some_iff.mp hretire
    obtain ⟨u', hu', he⟩ := Option.map_eq_some_iff.mp hd
    cases he
    rw [hu] at hu'
    cases hu'
    exact ⟨key, hitem, hu, rfl⟩
  · cases h

end Moment

/-- A worker that leaves as it is let leave has its hooks told, then the listener. -/
theorem World.retire_of_worker? {w : World} {key : WorkerKey} {v : Worker}
    (hv : w.pool.worker? key = some v) :
    w.retire key v.seq =
      ((w.depart (w.pool.depart w.catalog key v false)).1,
        v.hooks.map (fun k => .tellHook k (w.pool.depart w.catalog key v false).removed) ++
          [.tellCapacity key .empty,
            .tellRemoved (w.pool.depart w.catalog key v false).removed true]) := by
  unfold retire
  rw [Pool.retire?_eq_some_iff.mpr ⟨v, hv, rfl, rfl⟩]
  rfl

namespace Machine

variable {rule : Conduct} {w₀ : World} {t t₁ t₀ : List Moment} {m : Machine} {x : Moment}
  {v : Worker} {d : Pool.Departure} {o : RescueOrder}

/-- In every run, however it began, an order of a worker that finishes draining is heeded or
swallowed when all calls have returned. -/
theorem Course.heeded_iff (h : Course rule w₀ t m) (hdone : m.agenda = [])
    (hx : Drains t t₁ x t₀ v d) (ho : o ∈ d.removed.rescues) :
    Heeded t₁ d.removed o ↔ ¬ x.world.Swallows v.hooks d.removed := by
  obtain ⟨rfl, hdrained, hsink⟩ := hx
  obtain ⟨key, hitem, hv, rfl⟩ := Moment.eq_of_drained? hdrained
  obtain ⟨rest, -, hon⟩ := h.onward
  have heffect : x.world.carryOut x.item = _ :=
    (congrArg x.world.carryOut hitem).trans (World.retire_of_worker? hv)
  rw [step_cons, heffect, List.append_assoc] at hon
  rw [hon.heeded_iff hdone hsink rfl ho]
  exact not_congr ⟨fun hs => ⟨hs.idle, hs.claimed, hs.unclaimed⟩,
    fun hs => ⟨hs.idle, hs.claimed, hs.unclaimed⟩⟩

/-- In every run, however it began, nothing is swallowed exactly if nothing is at any moment. -/
theorem Course.nothingSwallowed_iff_forall (h : Course rule w₀ t m) (hdone : m.agenda = []) :
    NothingSwallowed t ↔ ∀ x ∈ t, x.swallows = false := by
  constructor
  · intro hall x hx
    obtain ⟨t₁, t₀, hsplit⟩ := List.append_of_mem hx
    by_contra hswallows
    rw [Bool.not_eq_false, Moment.swallows, Bool.and_eq_true, Option.any_eq_true] at hswallows
    obtain ⟨hsink, ⟨v, d⟩, hdrained, hr⟩ := hswallows
    rw [Bool.and_eq_true, Bool.not_eq_true', List.isEmpty_eq_false_iff, decide_eq_true_iff] at hr
    obtain ⟨o, ho⟩ := List.exists_mem_of_ne_nil _ hr.1
    have hx : Drains t t₁ x t₀ v d := ⟨hsplit, hdrained, hsink⟩
    exact (h.heeded_iff hdone hx ho).mp (hall hx o ho) hr.2
  · intro hall t₁ x t₀ v d hx o ho
    refine (h.heeded_iff hdone hx ho).mpr fun hs => ?_
    have hmem : x ∈ t := hx.split ▸ List.mem_append_right _ List.mem_cons_self
    have hne : d.removed.rescues.isEmpty = false :=
      List.isEmpty_eq_false_iff.mpr (List.ne_nil_of_mem ho)
    have hnot := hall x hmem
    rw [Moment.swallows, hx.sink, hx.drained, Option.any_some, hne, decide_eq_true hs] at hnot
    cases hnot

variable {policy : Policy} {localNodes : List String} {withholds : Bool} {limit : Nat}

/-- There is an agent until it is dismissed. -/
theorem Course.agent_eq_none_iff
    (h : Course rule (World.fresh policy localNodes withholds limit) t m) :
    m.world.agent = none ↔ ∃ y ∈ t, y.item.dismisses = true := by
  induction h with
  | start => simp [World.fresh]
  | ask _ _ _ ih => exact ih
  | answer _ _ _ ih => exact ih
  | @item t w i rest _ ih =>
    have hagent : (w.carryOut i).1.agent = none ↔ i.dismisses = true ∨ w.agent = none := by
      rw [← Option.not_isSome_iff_eq_none, ← Option.not_isSome_iff_eq_none,
        (w.staff_carryOut i).1]
      cases i.dismisses <;> simp
    rw [step_cons, hagent, ih, List.exists_mem_cons_iff]

/-- Orders are swallowed if the worker was left to an agent that is gone. -/
theorem Course.swallows_iff (hrule : rule.SparesPool)
    (h : Course rule (World.fresh policy localNodes withholds limit) t m)
    (hx : Drains t t₁ x t₀ v d) :
    x.world.Swallows v.hooks d.removed ↔ Forsaken t₀ x.world v := by
  obtain ⟨rfl, hdrained, -⟩ := hx
  obtain ⟨key, -, hv, rfl⟩ := Moment.eq_of_drained? hdrained
  obtain ⟨rest, hbefore⟩ := h.before
  have hgone := hbefore.agent_eq_none_iff
  have hgiven : v.hooks = hooksGiven t₀ v.seq := (hbefore.roster hrule).hooks hv
  have hclaimed : (x.world.pool.depart x.world.catalog key v false).removed.claimed = true ↔
      v.hooks ≠ [] := by
    show (!v.hooks.isEmpty) = true ↔ _
    simp
  rw [hgiven] at hclaimed ⊢
  constructor
  · rintro ⟨hidle, hc, hu⟩
    have hne := hclaimed.mp hc
    obtain ⟨hook, hmem⟩ := List.exists_mem_of_ne_nil _ hne
    exact ⟨hne, fun k hk => (hidle k hk).1, hgone.mp (hidle hook hmem).2, hu⟩
  · rintro ⟨hne, hagents, hdismissed, hu⟩
    exact ⟨fun k hk => ⟨hagents k hk, hgone.mpr hdismissed⟩, hclaimed.mpr hne, hu⟩

/-- However scheduler, agent and catalog are used, when all calls have returned every order of a
worker that finished draining has been handed to the sink, taken over by the listener, received by a
caller or logged, unless the worker was left to an agent that was dismissed before and no listener
takes orders over.  Then nobody has heard of it. -/
theorem Course.nothingSwallowed_iff (hrule : rule.SparesPool)
    (h : Course rule (World.fresh policy localNodes withholds limit) t m)
    (hdone : m.agenda = []) :
    (∀ {t₁ x t₀ v d}, Drains t t₁ x t₀ v d →
      ∀ o ∈ d.removed.rescues, (Heeded t₁ d.removed o ↔ ¬ Forsaken t₀ x.world v)) ∧
    (NothingSwallowed t ↔ ∀ {t₁ x t₀ v d}, Drains t t₁ x t₀ v d →
      d.removed.rescues ≠ [] → ¬ Forsaken t₀ x.world v) := by
  have heach {t₁ x t₀ v d} (hx : Drains t t₁ x t₀ v d) (o) (ho : o ∈ d.removed.rescues) :
      Heeded t₁ d.removed o ↔ ¬ Forsaken t₀ x.world v :=
    (h.heeded_iff hdone hx ho).trans (not_congr (h.swallows_iff hrule hx))
  refine ⟨heach, fun hall _ _ _ _ _ hx hne => ?_, fun hall _ _ _ _ _ hx o ho => ?_⟩
  · obtain ⟨o, ho⟩ := List.exists_mem_of_ne_nil _ hne
    exact (heach hx o ho).mp (hall hx o ho)
  · exact (heach hx o ho).mpr (hall hx (List.ne_nil_of_mem ho))

/-! ### An agent that is dismissed while a node drains -/

/-- The agent gets a sink. -/
def serving : Machine := asked (World.fresh .fifo [] false 8) 0 .noteRescues

/-- A node is offered. -/
def admitting : Machine :=
  asked (serving.advance 2).world 1 (.offerNode { name := "n", description := .cpus 1 } none)

/-- A task is accepted, and bound to the node. -/
def employing : Machine :=
  asked (admitting.advance 5).world 2 (.submit (.single (.cpus 1) "h") .silent)

/-- The node has the only file of a datum. -/
def depositing : Machine :=
  asked (employing.advance 8).world 3 (.addReplica "d" (.ownFile "n" "/d"))

/-- The node is given back, and drains. -/
def recalling : Machine := asked (depositing.advance 3).world 4 (.removeNode { name := "n" })

/-- The agent is dismissed. -/
def resigning : Machine := asked (recalling.advance 2).world 5 .dismissAgent

/-- The task is done. -/
def concluding (w : World) : Machine := asked w 6 (.complete 1 [])

/-- The moments until the node was given back. -/
def recallingMoments : List Moment :=
  moments 2 recalling ++ (moments 3 depositing ++ (moments 8 employing ++
    (moments 5 admitting ++ (moments 2 serving ++ []))))

/-- The moments if the agent stays. -/
def stayingMoments : List Moment :=
  moments 11 (concluding (recalling.advance 2).world) ++ recallingMoments

/-- The moments if the agent is dismissed. -/
def resigningMoments : List Moment :=
  moments 10 (concluding (resigning.advance 2).world) ++ (moments 2 resigning ++ recallingMoments)

theorem course_recalling :
    Course (.quiet fun c => c.surface ≠ .pool) (World.fresh .fifo [] false 8) recallingMoments
      ⟨(recalling.advance 2).world, []⟩ :=
  ((((Course.start.call 0 2 (show _ ≠ _ by decide) (by decide +kernel)).call 1 5
    (show _ ≠ _ by decide) (by decide +kernel)).call 2 8 (show _ ≠ _ by decide)
    (by decide +kernel)).call 3 3 (show _ ≠ _ by decide) (by decide +kernel)).call 4 2
    (show _ ≠ _ by decide) (by decide +kernel)

theorem course_staying :
    Course (.quiet fun c => c.surface ≠ .pool) (World.fresh .fifo [] false 8) stayingMoments
      ⟨((concluding (recalling.advance 2).world).advance 11).world, []⟩ :=
  course_recalling.call 6 11 (show _ ≠ _ by decide) (by decide +kernel)

theorem course_resigning :
    Course (.quiet fun c => c.surface ≠ .pool) (World.fresh .fifo [] false 8) resigningMoments
      ⟨((concluding (resigning.advance 2).world).advance 10).world, []⟩ :=
  (course_recalling.call 5 2 (show _ ≠ _ by decide) (by decide +kernel)).call 6 10
    (show _ ≠ _ by decide) (by decide +kernel)

/-- If the agent is dismissed while a node drains, the order of the node is swallowed. -/
theorem exists_course_swallowed :
    ∃ t m, Course (.quiet fun c => c.surface ≠ .pool) (World.fresh .fifo [] false 8) t m ∧
      m.agenda = [] ∧ ¬ NothingSwallowed t := by
  refine ⟨_, _, course_resigning, rfl, fun hall => ?_⟩
  have hnone := (course_resigning.nothingSwallowed_iff_forall rfl).mp hall
  have hsome : resigningMoments.any Moment.swallows = true := by decide +kernel
  obtain ⟨x, hx, hswallows⟩ := List.any_eq_true.mp hsome
  rw [hnone x hx] at hswallows
  cases hswallows

/-- If the agent stays, the order of the node is heeded. -/
theorem nothingSwallowed_staying :
    (stayingMoments.filterMap Moment.drained?).map (fun r => r.2.removed.rescues) =
        [[⟨"d", "n", .ownFile "n" "/d"⟩]] ∧
      NothingSwallowed stayingMoments := by
  have hstays : stayingMoments.any (fun y => y.item.dismisses) = false := by decide +kernel
  refine ⟨by decide +kernel, (Course.nothingSwallowed_iff ⟨fun h => h, False.elim⟩ course_staying
    rfl).2.mpr fun hx _ hforsaken => ?_⟩
  obtain ⟨y, hy, hdismisses⟩ := hforsaken.dismissed
  have hmem : y ∈ stayingMoments :=
    hx.split ▸ List.mem_append_right _ (List.mem_cons_of_mem _ hy)
  exact List.any_eq_false.mp hstays y hmem hdismisses

end Machine

end TaskGrid
