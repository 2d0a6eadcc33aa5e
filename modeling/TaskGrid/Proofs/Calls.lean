import TaskGrid.Proofs.Lifecycle
import TaskGrid.Proofs.Notices

/-!
# Calls return

When nobody answers an event and nothing disturbs the pool, every call returns: the items that an
item leads to, and those that they lead to in turn, are over after finitely many steps.

## Why they are over

An item leads to items of lower stages only (`Item.stage`).  A terminal event may close a session,
whose nodes are released; a worker that leaves is told to hooks, and these hand rescue orders over;
what is saved is announced, and names that become available wake actions, for which a pass runs; but
a pass ends no action, and so it tells no terminal event.  Where an item leads to an item of its own
stage, that is the rest of its work (`Item.size`): a monitor inside a session, the other orders of a
batch, the other nodes and data of a task.  Only the batches that were put off are not bounded by
the item that carries them out; but no batch puts another one off.

* `World.Completes`: items are carried out with all that they lead to.
* `World.Completes.advance`: they are carried out by the steps of the machine.
* `World.below_of_mem`: what an item leads to is below it.
* `World.exists_completes`: every item is completed.
-/

namespace TaskGrid

/-! ## Following a call -/

namespace World

/-- The items `l` are carried out in the moments `t`, the latest first, with all that they lead to;
they begin in the world `w` and leave the world `w'`. -/
inductive Completes : World → List Item → List Moment → World → Prop where
  /-- There is nothing to carry out. -/
  | nil (w : World) : Completes w [] [] w
  /-- An item is carried out, then what it leads to, then the others. -/
  | cons {w w₁ w₂ : World} {i : Item} {l : List Item} {t₁ t₂ : List Moment} :
    Completes (w.carryOut i).1 (w.carryOut i).2 t₁ w₁ → Completes w₁ l t₂ w₂ →
      Completes w (i :: l) (t₂ ++ (t₁ ++ [⟨w, i⟩])) w₂

namespace Completes

variable {w w₁ w' : World} {i : Item} {l r : List Item} {t t₁ t₂ : List Moment}

/-- What one item leads to is all that it takes. -/
theorem single (h : Completes (w.carryOut i).1 (w.carryOut i).2 t w') :
    Completes w [i] (t ++ [⟨w, i⟩]) w' := .cons h (.nil w')

/-- An item is carried out, with all that it leads to. -/
theorem single_of_eq {u : World} (hi : w.carryOut i = (u, l)) (h : Completes u l t w') :
    Completes w [i] (t ++ [⟨w, i⟩]) w' := by
  refine single ?_
  rw [hi]
  exact h

theorem append (h : Completes w l t₁ w₁) (h' : Completes w₁ r t₂ w') :
    Completes w (l ++ r) (t₂ ++ t₁) w' := by
  induction h with
  | nil w => simpa using h'
  | @cons w v v' i l s₁ s₂ h₁ _ _ ih =>
    rw [List.cons_append, ← List.append_assoc]
    exact .cons h₁ (ih h')

theorem of_cons (h : Completes w (i :: l) t w') : ∃ t₁ w₁ t₂,
    Completes (w.carryOut i).1 (w.carryOut i).2 t₁ w₁ ∧ Completes w₁ l t₂ w' ∧
      t = t₂ ++ (t₁ ++ [⟨w, i⟩]) := by
  cases h with
  | cons h₁ h₂ => exact ⟨_, _, _, h₁, h₂, rfl⟩

theorem of_nil (h : Completes w [] t w') : w' = w ∧ t = [] := by
  cases h
  exact ⟨rfl, rfl⟩

theorem of_single (h : Completes w [i] t w') :
    ∃ s, Completes (w.carryOut i).1 (w.carryOut i).2 s w' ∧ t = s ++ [⟨w, i⟩] := by
  obtain ⟨s, v, r, h₁, h₂, rfl⟩ := h.of_cons
  obtain ⟨rfl, rfl⟩ := h₂.of_nil
  exact ⟨s, h₁, rfl⟩

theorem of_append (h : Completes w (l ++ r) t w') : ∃ t₁ w₁ t₂,
    Completes w l t₁ w₁ ∧ Completes w₁ r t₂ w' ∧ t = t₂ ++ t₁ := by
  induction l generalizing w t with
  | nil => exact ⟨[], w, t, .nil w, h, (List.append_nil t).symm⟩
  | cons i l ih =>
    obtain ⟨t₁, w₁, t₂, h₁, h₂, rfl⟩ := h.of_cons
    obtain ⟨s₁, v, s₂, hl, hr, rfl⟩ := ih h₂
    exact ⟨_, v, s₂, .cons h₁ hl, hr, List.append_assoc ..⟩

/-- Whatever every moment preserves holds at every moment, if the items that an item leads to are
again such as `S` says. -/
theorem along {P : World → Prop} {S : Item → Prop}
    (hstep : ∀ {w i}, P w → S i → P (w.carryOut i).1 ∧ ∀ j ∈ (w.carryOut i).2, S j)
    (h : Completes w l t w') (hw : P w) (hl : ∀ i ∈ l, S i) :
    P w' ∧ ∀ x ∈ t, P x.world ∧ S x.item := by
  induction h with
  | nil w => exact ⟨hw, fun x hx => by cases hx⟩
  | @cons w v v' i l s₁ s₂ _ _ ih₁ ih₂ =>
    have hi : S i := hl i List.mem_cons_self
    obtain ⟨hv, hs₁⟩ := ih₁ (hstep hw hi).1 (hstep hw hi).2
    obtain ⟨hv', hs₂⟩ := ih₂ hv fun j hj => hl j (List.mem_cons_of_mem _ hj)
    refine ⟨hv', fun x hx => ?_⟩
    rcases List.mem_append.mp hx with hx | hx
    · exact hs₂ x hx
    · rcases List.mem_append.mp hx with hx | hx
      · exact hs₁ x hx
      · rw [List.mem_singleton.mp hx]
        exact ⟨hw, hi⟩

/-- What is carried out at a moment is completed before the items that waited meanwhile. -/
theorem within (h : Completes w l t w') {t₂ t₀ : List Moment} {x : Moment}
    (ht : t = t₂ ++ x :: t₀) :
    ∃ t₃ s v, t₂ = t₃ ++ s ∧ Completes x.world [x.item] (s ++ [x]) v := by
  induction h generalizing t₂ t₀ with
  | nil w => exact absurd ht (by simp)
  | @cons w v v' i l s₁ s₂ h₁ _ ih₁ ih₂ =>
    rcases append_cons_cases ht with ⟨a, hs⟩ | ⟨a, rfl, ha⟩
    · exact ih₂ hs
    · rcases append_cons_cases ha with ⟨b, hs⟩ | ⟨b, rfl, hb⟩
      · obtain ⟨t₃, s, u, rfl, hu⟩ := ih₁ hs
        exact ⟨s₂ ++ t₃, s, u, (List.append_assoc s₂ t₃ s).symm, hu⟩
      · obtain ⟨rfl, rfl⟩ : b = [] ∧ x = ⟨w, i⟩ := by
          cases b with
          | nil => exact ⟨rfl, (List.cons.inj hb).1.symm⟩
          | cons y b => exact absurd (List.cons.inj hb).2 (by simp)
        exact ⟨s₂, s₁, v, by rw [List.append_nil], h₁.single⟩

end Completes

end World

namespace Machine

theorem advance_add (m n : Nat) (x : Machine) :
    x.advance (m + n) = (x.advance m).advance n := by
  induction m generalizing x with
  | zero => rw [Nat.zero_add]; rfl
  | succ m ih =>
    rw [Nat.succ_add]
    exact ih x.step

theorem moments_add (m n : Nat) (x : Machine) :
    moments (m + n) x = moments n (x.advance m) ++ moments m x := by
  induction m generalizing x with
  | zero => simp [moments, advance]
  | succ m ih =>
    rw [Nat.succ_add]
    show moments (m + n) x.step ++ _ = _ ++ (moments m x.step ++ _)
    rw [ih, List.append_assoc]
    rfl

end Machine

/-- Items are completed by the steps of the machine, while the rest of the agenda waits. -/
theorem World.Completes.advance {w w' : World} {l : List Item} {t : List Moment}
    (h : w.Completes l t w') (rest : List Item) :
    (⟨w, l ++ rest⟩ : Machine).advance t.length = ⟨w', rest⟩ ∧
      Machine.moments t.length ⟨w, l ++ rest⟩ = t := by
  induction h generalizing rest with
  | nil w => exact ⟨rfl, rfl⟩
  | @cons w v v' i l s₁ s₂ _ _ ih₁ ih₂ =>
    obtain ⟨ha₁, hm₁⟩ := ih₁ (l ++ rest)
    obtain ⟨ha₂, hm₂⟩ := ih₂ rest
    have hone : (⟨w, i :: l ++ rest⟩ : Machine).advance (1 + s₁.length) = ⟨v, l ++ rest⟩ := by
      rw [Machine.advance_add]
      exact ha₁
    have hone' : Machine.moments (1 + s₁.length) ⟨w, i :: l ++ rest⟩ = s₁ ++ [⟨w, i⟩] := by
      rw [Machine.moments_add]
      exact congrArg (fun s : List Moment => s ++ [⟨w, i⟩]) hm₁
    have hlength : (s₂ ++ (s₁ ++ [(⟨w, i⟩ : Moment)])).length = 1 + s₁.length + s₂.length := by
      simp only [List.length_append, List.length_singleton]
      omega
    rw [hlength, Machine.advance_add, Machine.moments_add, hone, hone', ha₂, hm₂]
    exact ⟨rfl, rfl⟩

/-! ## Stages -/

/-- How many sessions pass an event on to a monitor. -/
def Monitor.depth : Monitor → Nat
  | .session _ inner => inner.depth + 1
  | _ => 0

/-- How much there is to prepare for a task. -/
def Preparation.size (p : Preparation) : Nat :=
  2 * p.offers.length + (p.imports.map fun r => r.sources.length + 3).sum + 1

/-- How much there is to do when a node was registered or a datum taken over. -/
def Resume.size : Resume → Nat
  | .answer _ => 0
  | .prepare p => p.size

namespace Item

/-- The stage of an item: it leads to items of lower stages, apart from the rest of its own work. -/
def stage : Item → Nat
  | .note _ | .prompt _ | .report .. | .tellCapacity .. | .tellRemoved .. => 0
  | .deliver _ e => if e.isTerminal then 11 else 1
  | .pass _ => 2
  | .wake _ => 3
  | .addReplica .. => 4
  | .rescue _ => 5
  | .handOver _ => 6
  | .tellHook .. => 7
  | .retire .. | .releaseNode _ => 8
  | .endSession _ => 9
  | .closeSession _ => 10
  | .failBound .. => 12
  | .joinNode .. | .takeOver _ | .takenOver .. | .prepare _ => 13
  | .runDeferred => 14
  | .obey .. => 15

/-- How much of its own work an item has. -/
def size : Item → Nat
  | .deliver m _ => m.depth
  | .rescue b => b.orders.length
  | .joinNode _ _ next => next.size + 1
  | .takenOver _ _ next => next.size + 1
  | .takeOver i => i.sources.length + i.resume.size + 2
  | .prepare p => p.size
  | _ => 0

/-- An item is of a lower stage than another, or is a part of its work. -/
def Below (j i : Item) : Prop := j.stage < i.stage ∨ j.stage = i.stage ∧ j.size < i.size

theorem Below.stage_le {j i : Item} (h : j.Below i) : j.stage ≤ i.stage := by
  rcases h with h | ⟨h, -⟩
  · exact Nat.le_of_lt h
  · exact Nat.le_of_eq h

theorem wellFounded_below : WellFounded Below := by
  refine Subrelation.wf (r := InvImage (Prod.Lex (· < ·) (· < ·)) fun i : Item =>
    (i.stage, i.size)) (fun {j i} h => ?_)
    (InvImage.wf _ (Prod.lex ⟨_, Nat.lt_wfRel.wf⟩ ⟨_, Nat.lt_wfRel.wf⟩).wf)
  rcases h with h | ⟨h, hs⟩
  · exact .left _ _ h
  · show Prod.Lex _ _ (j.stage, j.size) (i.stage, i.size)
    rw [h]
    exact .right _ hs

/-- Whether an item is a command or is about rescue orders that the sink was handed. -/
def isAboutRescues : Item → Bool
  | .obey .. | .handOver _ | .rescue _ | .runDeferred => true
  | _ => false

theorem stage_deliver_lt (m : Monitor) (e : Event) : (deliver m e).stage < 12 := by
  show (if e.isTerminal then 11 else 1) < 12
  split <;> decide

/-- No item that follows another is of the last stage. -/
theorem stage_lt_of_follows {prep : Bool} {j : Item} (h : j.follows prep = true) :
    j.stage < 15 := by
  cases j with
  | obey => cases h
  | deliver m e => exact Nat.lt_trans (stage_deliver_lt m e) (by decide)
  | _ => simp [stage]

end Item

/-! ## Passes that nothing disturbs -/

namespace Pass

variable {p q : Pass}

/-- While nothing is to disturb a pass, nothing happens to the data, and nobody leaves. -/
theorem calm_steps (policy : Policy) (n : Nat) (h : p.disturbances = []) :
    (steps policy n p).disturbances = [] ∧ (steps policy n p).catalog = p.catalog ∧
      (steps policy n p).incidents = p.incidents := by
  induction n generalizing p with
  | zero => exact ⟨h, rfl, rfl⟩
  | succ n ih =>
    have hbind (q : Pass) (x : Candidate) (free : Capacity) (pool : Pool) :
        (q.bind x free pool).disturbances = q.disturbances ∧
          (q.bind x free pool).incidents = q.incidents := by
      unfold bind
      dsimp only
      split <;> exact ⟨rfl, rfl⟩
    have hstep : (p.step policy).1.disturbances = [] ∧ (p.step policy).1.catalog = p.catalog ∧
        (p.step policy).1.incidents = p.incidents := by
      unfold step
      rw [best?_of_calm policy h]
      cases ((candidates p.schedule p.views).foldl (choose policy p.catalog) none).map
        Prod.snd with
      | none => exact ⟨h, rfl, rfl⟩
      | some x =>
        dsimp only
        split
        · next free pool _ =>
          exact ⟨(hbind _ x free pool).1.trans h, catalog_bind _ x free pool,
            (hbind _ x free pool).2⟩
        · obtain ⟨views, hv⟩ := revise_eq
            { p with scored := p.scored + (candidates p.schedule p.views).length } x
          rw [hv]
          exact ⟨h, rfl, rfl⟩
    unfold steps
    generalize p.step policy = r at hstep ⊢
    obtain ⟨q, more⟩ := r
    cases more with
    | false => exact hstep
    | true =>
      obtain ⟨hcalm, hcatalog, hincidents⟩ := ih hstep.1
      exact ⟨hcalm, hcatalog.trans hstep.2.1, hincidents.trans hstep.2.2⟩

/-- Whoever is told something by a report of what fits nowhere is not told an end. -/
theorem events_reportOne {views : List WorkerView} {s : Schedule} {o : Outbox} {id : Nat}
    (h : ∀ x ∈ o.events, x.2.isTerminal = false) :
    ∀ x ∈ (reportOne views s o id).2.events, x.2.isTerminal = false := by
  unfold reportOne
  split
  · exact h
  · dsimp only
    split
    · exact h
    · dsimp only
      rw [Entry.events_emit]
      refine List.forall_mem_append.mpr ⟨h, fun n hn => ?_⟩
      rw [Entry.mem_news hn]
      rfl

/-- No pass tells the end of an action. -/
theorem Amid.goes_on (h : p.Amid q) (hp : ∀ x ∈ p.outbox.events, x.2.isTerminal = false) :
    ∀ x ∈ q.outbox.events, x.2.isTerminal = false := by
  induction h with
  | start => exact hp
  | score _ _ _ ih => exact ih
  | disturb _ _ ih => exact ih
  | @bind q x free pool _ _ ih =>
    unfold Pass.bind
    dsimp only
    split
    · exact ih
    · dsimp only
      rw [Entry.events_emit]
      refine List.forall_mem_append.mpr ⟨ih, fun n hn => ?_⟩
      rw [Entry.mem_news hn]
      rfl
  | @revise q x _ ih =>
    obtain ⟨views, hv⟩ := q.revise_eq x
    rw [hv]
    exact ih
  | @report q _ ih =>
    exact List.foldlRecOn
      (motive := fun r : Schedule × Outbox => ∀ x ∈ r.2.events, x.2.isTerminal = false)
      q.schedule.ready.toList _ ih fun r hr id _ => events_reportOne hr

end Pass

namespace World

variable {w : World}

/-- A pass that nothing disturbs. -/
theorem calm_passed (h : w.disturbances = []) :
    w.passed.disturbances = [] ∧ w.passed.catalog = w.catalog ∧ w.passed.incidents = [] :=
  Pass.calm_steps w.policy _ h

/-! ## What items lead to -/

/-- What there is to tell is of a low stage, if nobody is about to leave. -/
theorem stage_ofOutbox {o : Outbox} (drained : o.drained = [])
    (events : ∀ x ∈ o.events, x.2.isTerminal = false) : ∀ j ∈ Item.ofOutbox o, j.stage < 2 := by
  unfold Item.ofOutbox
  rw [drained]
  refine List.forall_mem_append.mpr ⟨fun j hj => ?_, by simp [Item.stage]⟩
  obtain ⟨x, hx, rfl⟩ := List.mem_map.mp hj
  simp [Item.stage, events x hx]

theorem stage_announcements (w : World) (names : List String) :
    ∀ j ∈ w.announcements names, j.stage < 4 := by
  unfold announcements
  simp only [List.mem_append, List.mem_map, List.mem_flatMap]
  rintro j (⟨name, -, rfl⟩ | ⟨label, -, name, -, rfl⟩) <;> simp [Item.stage]

theorem stage_runPass (h : w.disturbances = []) (token : Option Nat) :
    ∀ j ∈ (w.runPass token).2, j.stage < 2 := by
  have hamid := Pass.amid_run w.policy
    (Pass.start w.schedule w.pool w.catalog w.disturbances w.scored)
  have hout := stage_ofOutbox hamid.drained (hamid.goes_on (List.forall_mem_nil _))
  show ∀ j ∈ w.passed.incidents.map Item.ofIncident ++ Item.ofOutbox w.passed.outbox ++ _, _
  rw [(calm_passed h).2.2]
  refine List.forall_mem_append.mpr ⟨hout, fun j hj => ?_⟩
  obtain ⟨t, -, rfl⟩ := List.mem_map.mp hj
  simp [Item.stage, Item.reply]

theorem stage_wake (w : World) (name : String) : ∀ j ∈ (w.wake name).2, j.stage < 3 := by
  obtain ⟨es, hes, hgo, -⟩ := w.schedule.advances_wake name
  have hout := stage_ofOutbox (w.schedule.drained_wake name) (by
    rw [hes]
    exact hgo)
  unfold wake
  dsimp only
  split
  · exact List.forall_mem_nil _
  · refine List.forall_mem_append.mpr ⟨fun j hj => Nat.lt_succ_of_lt (hout j hj), ?_⟩
    simp [Item.stage]

theorem stage_ofHooks (d : Pool.Departure) : ∀ j ∈ Item.ofHooks d, j.stage < 8 := by
  simp [Item.ofHooks, Item.stage]

theorem stage_removeWorker (w : World) (key : WorkerKey) (hook : Option RemovalHook) :
    ∀ j ∈ (w.removeWorker key hook).2.2, j.stage < 8 := by
  unfold removeWorker
  split
  · exact List.forall_mem_nil _
  · exact List.forall_mem_nil _
  · refine List.forall_mem_append.mpr ⟨stage_ofHooks _, ?_⟩
    simp [Item.stage]

theorem stage_retire (w : World) (key : WorkerKey) (seq : Nat) :
    ∀ j ∈ (w.retire key seq).2, j.stage < 8 := by
  unfold retire
  split
  · exact List.forall_mem_nil _
  · refine List.forall_mem_append.mpr ⟨stage_ofHooks _, ?_⟩
    simp [Item.stage]

theorem stage_closeSession (w : World) (app : ApplicationId) :
    ∀ j ∈ (w.closeSession app).2, j.stage < 10 := by
  unfold closeSession
  split <;> simp [Item.stage]

theorem stage_endSession (w : World) (app : ApplicationId) :
    ∀ j ∈ (w.endSession app).2, j.stage < 9 := by
  unfold endSession
  split <;> simp [Item.stage]

theorem stage_handOver (w : World) (orders : List RescueOrder) :
    ∀ j ∈ (w.handOver orders).2, j.stage < 6 := by
  unfold handOver
  split
  · exact List.forall_mem_nil _
  · exact List.forall_mem_nil _
  · split
    · exact List.forall_mem_nil _
    · dsimp only
      split <;> simp [Item.stage]

theorem stage_addReplica (w : World) (name : String) (r : Replica) (token : Option Nat) :
    ∀ j ∈ (w.addReplica name r token).2, j.stage < 4 := by
  refine List.forall_mem_append.mpr ⟨w.stage_announcements _, fun j hj => ?_⟩
  obtain ⟨t, -, rfl⟩ := List.mem_map.mp hj
  exact Nat.zero_lt_succ _

/-- What there is to tell is in any case of a lower stage than the failure of bound actions. -/
theorem stage_ofOutbox_lt (o : Outbox) : ∀ j ∈ Item.ofOutbox o, j.stage < 12 := by
  unfold Item.ofOutbox
  simp only [List.mem_append, List.mem_map, List.mem_cons]
  rintro j (⟨x, -, rfl⟩ | rfl | ⟨x, -, rfl⟩)
  · exact Item.stage_deliver_lt x.1 x.2
  all_goals simp [Item.stage]

theorem stage_addWorker (w : World) (key : WorkerKey) (offered : Capacity) (adaptor : Adaptor) :
    ∀ j ∈ (w.addWorker key offered adaptor).2.2, j.stage < 13 := by
  simp [addWorker, Item.stage]

/-- An event is handed on to the monitors within, and the last one closes a session. -/
theorem below_deliver {m : Monitor} {e : Event} {j : Item} (hj : j ∈ (w.deliver m e).2) :
    j.Below (.deliver m e) := by
  rcases mem_deliver hj with ⟨p, rfl⟩ | ⟨app, inner, rfl, rfl | ⟨hend, rfl⟩⟩
  · left
    show 0 < if e.isTerminal then 11 else 1
    split <;> decide
  · exact .inr ⟨rfl, Nat.lt_succ_self _⟩
  · left
    show 10 < if e.isTerminal then 11 else 1
    rw [if_pos hend]
    decide

/-- The other orders of a batch are fewer. -/
theorem below_rescue {b : RescueBatch} {j : Item} (hj : j ∈ (w.rescue b).2) :
    j.Below (.rescue b) := by
  unfold rescue at hj
  split at hj
  · left
    unfold endBatch at hj
    split at hj
    · rw [List.mem_singleton.mp hj]
      exact Nat.zero_lt_succ 4
    · cases hj
  · next o rest ho =>
    have hsize : rest.length < b.orders.length := by
      rw [ho]
      exact Nat.lt_succ_self _
    dsimp only at hj
    split at hj
    · rcases List.mem_cons.mp hj with rfl | hj
      · exact .inl (Nat.lt_succ_self 4)
      · rw [List.mem_singleton.mp hj]
        exact .inr ⟨rfl, hsize⟩
    · rw [List.mem_singleton.mp hj]
      exact .inr ⟨rfl, hsize⟩

/-- What comes after a refusal or a registration is of a low stage, or the rest of the task. -/
theorem below_refuse (f : Fault) (next : Resume) : ∀ j ∈ refuse f next, j.stage < 13 := by
  cases next <;> simp [refuse, Item.stage, Item.reply]

theorem below_resume {r : Reply} {next : Resume} {j : Item} (hj : j ∈ resume r next) {n : Nat}
    (hn : next.size < n) : j.stage < 13 ∨ j.stage = 13 ∧ j.size < n := by
  cases next <;> obtain rfl := List.mem_singleton.mp hj
  · exact .inl (Nat.zero_lt_succ _)
  · exact .inr ⟨rfl, hn⟩

theorem below_joinNode {app : ApplicationId} {v : WorkerView} {next : Resume} {j : Item}
    (hj : j ∈ (w.joinNode app v next).2) : j.Below (.joinNode app v next) := by
  unfold joinNode at hj
  split at hj
  · exact .inl (below_refuse _ next j hj)
  · exact below_resume hj (Nat.lt_succ_self _)

theorem below_takenOver {name : String} {sources : Nat} {next : Resume} {j : Item}
    (hj : j ∈ (w.takenOver name sources next).2) : j.Below (.takenOver name sources next) := by
  dsimp only [takenOver] at hj
  split at hj
  · exact .inl (below_refuse _ next j hj)
  · exact below_resume hj (Nat.lt_succ_self _)

/-- The other sources of a datum are fewer. -/
theorem below_takeOver {im : Import} {j : Item} (hj : j ∈ (w.takeOver im).2) :
    j.Below (.takeOver im) := by
  have hnext {n : Nat} (hn : n < im.sources.length) :
      n + im.resume.size + 2 < im.sources.length + im.resume.size + 2 := by omega
  unfold takeOver at hj
  split at hj
  · next rest hs =>
    have hfewer : rest.length < im.sources.length := by simp [hs]
    dsimp only at hj
    split at hj <;> obtain rfl := List.mem_singleton.mp hj <;> exact .inr ⟨rfl, hnext hfewer⟩
  · next rest hs =>
    have hfewer : rest.length < im.sources.length := by simp [hs]
    dsimp only at hj
    split at hj
    · obtain rfl := List.mem_singleton.mp hj
      exact .inr ⟨rfl, hnext hfewer⟩
    · split at hj
      · obtain rfl := List.mem_singleton.mp hj
        exact .inr ⟨rfl, hnext hfewer⟩
      · rcases List.mem_append.mp hj with hj | hj
        · exact .inl (stage_addWorker _ _ _ _ j hj)
        · obtain rfl := List.mem_singleton.mp hj
          exact .inr ⟨rfl, hnext hfewer⟩
  · have hlast : (Item.takenOver im.name (im.found + im.replicas.length) im.resume).Below
        (.takeOver im) := .inr ⟨rfl, by simp only [Item.size]; omega⟩
    have hadding : ∀ j ∈ im.replicas.map fun r => Item.addReplica im.name r none,
        j.stage < 13 := by simp [Item.stage]
    dsimp only at hj
    split at hj
    · rcases List.mem_append.mp hj with hj | hj
      · exact .inl (hadding j hj)
      · rwa [List.mem_singleton.mp hj]
    · rcases List.mem_append.mp hj with hj | hj
      · rcases List.mem_append.mp hj with hj | hj
        · exact .inl (Nat.lt_trans (w.stage_announcements _ j hj) (show 4 < 13 by decide))
        · exact .inl (hadding j hj)
      · rwa [List.mem_singleton.mp hj]

/-- The other nodes and data of a task are fewer. -/
theorem below_prepare {p : Preparation} {j : Item} (hj : j ∈ (w.prepare p).2) :
    j.Below (.prepare p) := by
  unfold prepare at hj
  split at hj
  · next o rest ho =>
    have hfewer : ({ p with offers := rest } : Preparation).size + 2 = p.size := by
      simp only [Preparation.size, ho, List.length_cons]
      omega
    dsimp only at hj
    split at hj
    · obtain rfl := List.mem_singleton.mp hj
      exact .inr ⟨rfl, by simp only [Item.size]; omega⟩
    · unfold offer at hj
      split at hj
      · exact .inl (below_refuse _ (.prepare { p with offers := rest }) j hj)
      · rcases List.mem_append.mp hj with hj | hj
        · exact .inl (stage_addWorker _ _ _ _ j hj)
        · obtain rfl := List.mem_singleton.mp hj
          exact .inr ⟨rfl, by simp only [Item.size, Resume.size]; omega⟩
  · next r rest ho hi =>
    obtain rfl := List.mem_singleton.mp hj
    refine .inr ⟨rfl, ?_⟩
    simp only [beginTakeOver, Item.size, Resume.size, Preparation.size, ho, hi, List.map_cons,
      List.sum_cons]
    omega
  · left
    rcases List.mem_append.mp hj with hj | hj
    · rcases List.mem_append.mp hj with hj | hj
      · exact Nat.lt_trans (stage_ofOutbox_lt _ j hj) (Nat.lt_succ_self 12)
      · rw [List.mem_singleton.mp hj]
        simp only [Item.stage, Nat.reduceLT]
    · rw [List.mem_singleton.mp hj]
      exact Nat.zero_lt_succ 12

/-- What an item leads to is of a lower stage or a part of its work, unless it carries out the
batches that were put off. -/
theorem below_of_mem (hcalm : w.disturbances = []) {i j : Item} (hi : i ≠ .runDeferred)
    (hj : j ∈ (w.carryOut i).2) : j.Below i := by
  cases i with
  | obey token c => exact .inl (Item.stage_lt_of_follows (follows_of_mem hj))
  | note | prompt | report | tellCapacity | tellRemoved => cases hj
  | deliver m e => exact below_deliver hj
  | tellHook hook r =>
    obtain ⟨orders, rfl⟩ := mem_tellHook hj
    exact .inl (Nat.lt_succ_self 6)
  | retire key seq => exact .inl (w.stage_retire key seq j hj)
  | failBound key ids => exact .inl (stage_ofOutbox_lt _ j hj)
  | pass token => exact .inl (stage_runPass hcalm token j hj)
  | wake name => exact .inl (w.stage_wake name j hj)
  | addReplica name r token => exact .inl (w.stage_addReplica name r token j hj)
  | closeSession app => exact .inl (w.stage_closeSession app j hj)
  | endSession app => exact .inl (w.stage_endSession app j hj)
  | releaseNode key => exact .inl (w.stage_removeWorker key (some .agent) j hj)
  | handOver orders => exact .inl (w.stage_handOver orders j hj)
  | rescue b => exact below_rescue hj
  | runDeferred => exact absurd rfl hi
  | joinNode app v next => exact below_joinNode hj
  | takeOver im => exact below_takeOver hj
  | takenOver name sources next => exact below_takenOver hj
  | prepare p => exact below_prepare hj

/-! ## What goes on meanwhile -/

/-- Where nothing is to disturb the pool, no item brings disturbances. -/
theorem calm_carryOut (h : w.disturbances = []) (i : Item) :
    (w.carryOut i).1.disturbances = [] := by
  have hdoes := w.does_carryOut i
  generalize w.carryOut i = e at hdoes ⊢
  generalize Moment.deed ⟨w, i⟩ = d at hdoes
  cases hdoes with
  | idle still _ _ => exact still.disturbances.trans h
  | deliver m e => exact (deliver_frame w m e).2.2.1.trans h
  | tellHook hook r => exact (tellHook_frame w hook r).2.2.1.trans h
  | pass token => exact (calm_passed h).1
  | wake name =>
    unfold wake
    dsimp only
    split <;> exact h
  | remove key hook _ =>
    unfold removeWorker
    dsimp only
    split <;> exact h
  | retire key seq =>
    unfold retire
    split <;> exact h
  | _ => exact h

/-- From one world to another rescue orders go where they went, nothing was put off and nothing
reported. -/
structure SameRescues (w w' : World) : Prop where
  /-- The same sink. -/
  sink : w'.sink = w.sink
  /-- An agent or none, as before. -/
  agent : w'.agent.isSome = w.agent.isSome
  /-- The same batches were put off. -/
  deferred : w'.deferred = w.deferred
  /-- The same reports wait. -/
  reports : w'.reports = w.reports

theorem SameRescues.of_log {w' : World} (h : ∃ log, w' = { w with log }) : w.SameRescues w' := by
  obtain ⟨log, rfl⟩ := h
  exact ⟨rfl, rfl, rfl, rfl⟩

theorem report_eq (w : World) (a : List Assignment) (c : List (WorkerKey × Capacity)) :
    ∃ log, w.report a c = { w with log } := by
  unfold report
  split
  · exact ⟨w.log, rfl⟩
  · simp only [noteAll_eq]
    split <;> exact ⟨_, rfl⟩

theorem tellRemoved_eq (w : World) (r : RemovedWorker) (last : Bool) :
    ∃ log, w.tellRemoved r last = { w with log } := by
  unfold tellRemoved
  simp only [noteAll_eq, note]
  split <;> split <;> exact ⟨_, rfl⟩

theorem sameRescues_offer (w : World) (o : Offer) (app : Option ApplicationId) (next : Resume) :
    w.SameRescues (w.offer o app next).1 := by
  unfold offer
  split
  · exact ⟨rfl, rfl, rfl, rfl⟩
  · dsimp only
    split <;> exact ⟨rfl, rfl, rfl, rfl⟩

theorem sameRescues_endSession (w : World) (app : ApplicationId) :
    w.SameRescues (w.endSession app).1 := by
  unfold endSession
  split
  · exact ⟨rfl, rfl, rfl, rfl⟩
  · next nodes s h =>
    obtain ⟨s₀, hs, -⟩ := Option.bind_eq_some_iff.mp h
    exact ⟨rfl, by rw [hs]; rfl, rfl, rfl⟩

/-- All other items leave rescues as they are. -/
theorem sameRescues_carryOut {i : Item} (hi : i.isAboutRescues = false) :
    w.SameRescues (w.carryOut i).1 := by
  have hsame : w.SameRescues w := ⟨rfl, rfl, rfl, rfl⟩
  cases i with
  | obey | handOver | rescue | runDeferred => cases hi
  | note n => exact .of_log ⟨_, rfl⟩
  | prompt | failBound | pass | addReplica | takenOver => exact ⟨rfl, rfl, rfl, rfl⟩
  | deliver m e =>
    dsimp only [carryOut]
    unfold deliver
    dsimp only
    split <;> try exact ⟨rfl, rfl, rfl, rfl⟩
    split <;> exact ⟨rfl, rfl, rfl, rfl⟩
  | report a c => exact .of_log (w.report_eq a c)
  | tellCapacity key free => exact .of_log (w.report_eq [] [(key, free)])
  | tellRemoved r last => exact .of_log (w.tellRemoved_eq r last)
  | tellHook hook r =>
    dsimp only [carryOut, tellHook]
    split
    · exact .of_log ⟨_, rfl⟩
    · split <;> exact .of_log ⟨_, rfl⟩
  | retire | closeSession =>
    dsimp only [carryOut]
    first | unfold retire | unfold closeSession
    split <;> exact ⟨rfl, rfl, rfl, rfl⟩
  | wake name =>
    dsimp only [carryOut, wake]
    split <;> exact ⟨rfl, rfl, rfl, rfl⟩
  | endSession app => exact sameRescues_endSession w app
  | releaseNode key =>
    dsimp only [carryOut, releaseNode, removeWorker]
    split <;> exact ⟨rfl, rfl, rfl, rfl⟩
  | joinNode app v next =>
    dsimp only [carryOut]
    unfold joinNode
    split
    · exact hsame
    · exact ⟨rfl, Option.isSome_map, rfl, rfl⟩
  | takeOver im =>
    dsimp only [carryOut]
    unfold takeOver
    split
    · dsimp only
      split <;> exact hsame
    · dsimp only
      split
      · exact hsame
      · split <;> exact ⟨rfl, rfl, rfl, rfl⟩
    · dsimp only
      split <;> exact ⟨rfl, rfl, rfl, rfl⟩
  | prepare p =>
    dsimp only [carryOut]
    unfold prepare
    split
    · dsimp only
      split
      · exact hsame
      · exact sameRescues_offer w _ _ _
    · exact hsame
    · exact ⟨rfl, rfl, rfl, rfl⟩

/-- A batch leaves the sink and what was put off as they are. -/
theorem rescue_frame (w : World) (b : RescueBatch) :
    (w.rescue b).1.sink = w.sink ∧ (w.rescue b).1.agent = w.agent ∧
      (w.rescue b).1.deferred = w.deferred := by
  have hpublish (v : World) (channel : Option Nat) (r : RescueReport) :
      (v.publish channel r).sink = v.sink ∧ (v.publish channel r).agent = v.agent ∧
        (v.publish channel r).deferred = v.deferred := by
    unfold publish
    split
    · exact ⟨rfl, rfl, rfl⟩
    · split <;> exact ⟨rfl, rfl, rfl⟩
  unfold rescue
  split
  · unfold endBatch
    split
    · exact ⟨rfl, rfl, rfl⟩
    · next channel _ =>
      obtain ⟨hs, ha, hd⟩ := hpublish (if b.report.isClean = true then w
        else w.note (.alarm (.batchLoss b.report.saved.length b.report.failures.length)))
        channel b.report
      refine ⟨hs.trans ?_, ha.trans ?_, hd.trans ?_⟩ <;> split <;> rfl
  · dsimp only
    split <;> exact ⟨rfl, rfl, rfl⟩

/-! ## Every call returns -/

/-- Items, each of which is completed from every calm world, are completed one after the other. -/
theorem exists_completes_of_forall {l : List Item} (hl : ∀ i ∈ l, ∀ v : World,
      v.disturbances = [] → ∃ t v', v.Completes [i] t v' ∧ v'.disturbances = [])
    (h : w.disturbances = []) : ∃ t w', w.Completes l t w' ∧ w'.disturbances = [] := by
  induction l generalizing w with
  | nil => exact ⟨[], w, .nil w, h⟩
  | cons i l ih =>
    obtain ⟨t₁, v, h₁, hv⟩ := hl i List.mem_cons_self w h
    obtain ⟨t₂, w', h₂, hw'⟩ := ih (fun j hj => hl j (List.mem_cons_of_mem _ hj)) hv
    exact ⟨t₂ ++ t₁, w', h₁.append h₂, hw'⟩

/-- An item that leads neither to a command nor to the batches that were put off is completed. -/
theorem exists_completes_of_stage {i : Item} (hi : i.stage < 14) (h : w.disturbances = []) :
    ∃ t w', w.Completes [i] t w' ∧ w'.disturbances = [] := by
  induction i using Item.wellFounded_below.induction generalizing w with
  | _ i ih =>
    have hne : i ≠ .runDeferred := by
      rintro rfl
      exact absurd hi (Nat.lt_irrefl 14)
    have hall : ∀ j ∈ (w.carryOut i).2, ∀ v : World, v.disturbances = [] →
        ∃ t v', v.Completes [j] t v' ∧ v'.disturbances = [] := by
      intro j hj v hv
      have hbelow := below_of_mem h hne hj
      exact ih j hbelow (Nat.lt_of_le_of_lt hbelow.stage_le hi) hv
    obtain ⟨t, w', ht, hw'⟩ := exists_completes_of_forall hall (calm_carryOut h i)
    exact ⟨_, w', ht.single, hw'⟩

/-- While a batch is carried out nothing is put off. -/
theorem Completes.deferred {b : RescueBatch} {t : List Moment} {w' : World}
    (h : w.Completes [.rescue b] t w') (hcalm : w.disturbances = []) :
    w'.deferred = w.deferred := by
  refine (h.along (P := fun v => v.disturbances = [] ∧ v.deferred = w.deferred)
    (S := fun i => i.stage < 6) (fun {v i} hv hi => ⟨⟨calm_carryOut hv.1 i, ?_⟩, fun j hj => ?_⟩)
    ⟨hcalm, rfl⟩ fun i hi => ?_).1.2
  · cases hr : i.isAboutRescues with
    | false => exact (sameRescues_carryOut hr).deferred.trans hv.2
    | true =>
      cases i with
      | rescue b => exact (v.rescue_frame b).2.2.trans hv.2
      | obey | handOver | runDeferred => exact absurd hi (by simp [Item.stage])
      | _ => cases hr
  · have hne : i ≠ .runDeferred := by
      rintro rfl
      exact absurd hi (by simp [Item.stage])
    exact Nat.lt_of_le_of_lt (below_of_mem hv.1 hne hj).stage_le hi
  · rw [List.mem_singleton.mp hi]
    exact Nat.lt_succ_self 5

/-- The batches that were put off are carried out, until there is none. -/
theorem exists_completes_runDeferred (h : w.disturbances = []) :
    ∃ t w', w.Completes [.runDeferred] t w' ∧ w'.disturbances = [] ∧ w'.deferred = [] := by
  generalize hd : w.deferred = l
  induction l generalizing w with
  | nil =>
    have he : w.carryOut .runDeferred = (w, []) := by
      show w.runDeferred = _
      unfold runDeferred
      rw [hd]
    exact ⟨_, w, Completes.single_of_eq he (.nil w), h, hd⟩
  | cons b rest ih =>
    have he : w.carryOut .runDeferred =
        ({ w with deferred := rest }, [.rescue b, .runDeferred]) := by
      show w.runDeferred = _
      unfold runDeferred
      rw [hd]
    obtain ⟨t₁, v, h₁, hv⟩ := exists_completes_of_stage
      (w := { w with deferred := rest }) (i := .rescue b) (by simp [Item.stage]) h
    obtain ⟨t₂, w', h₂, hw', hnone⟩ := ih hv (h₁.deferred h)
    exact ⟨_, w', Completes.single_of_eq he (h₁.append h₂), hw', hnone⟩

/-- Every item is completed, unless a client answers or the pool is disturbed. -/
theorem exists_completes (h : w.disturbances = []) (i : Item) :
    ∃ t w', w.Completes [i] t w' ∧ w'.disturbances = [] := by
  have hlow {j : Item} (hj : j.stage < 15) (v : World) (hv : v.disturbances = []) :
      ∃ t v', v.Completes [j] t v' ∧ v'.disturbances = [] := by
    by_cases hd : j.stage < 14
    · exact exists_completes_of_stage hd hv
    · obtain rfl : j = .runDeferred := by
        cases j with
        | runDeferred => rfl
        | obey => exact absurd hj (Nat.lt_irrefl 15)
        | deliver m e =>
          exact absurd (Nat.lt_trans (Item.stage_deliver_lt m e) (by decide)) hd
        | _ => exact absurd (by simp [Item.stage]) hd
      obtain ⟨t, v', ht, hv', -⟩ := exists_completes_runDeferred hv
      exact ⟨t, v', ht, hv'⟩
  by_cases hi : i.stage < 15
  · exact hlow hi w h
  · cases i with
    | obey token c =>
      obtain ⟨t, w', ht, hw'⟩ := exists_completes_of_forall (l := (w.carryOut (.obey token c)).2)
        (fun j hj v hv => hlow (Item.stage_lt_of_follows (follows_of_mem hj)) v hv)
        (calm_carryOut h _)
      exact ⟨_, w', ht.single, hw'⟩
    | deliver m e => exact absurd (Nat.lt_trans (Item.stage_deliver_lt m e) (by decide)) hi
    | _ => exact absurd (by simp [Item.stage]) hi

end World

/-- Nothing disturbs a course in which nothing is to disturb it. -/
theorem Machine.Course.calm {rule : Conduct} {w₀ : World} {t : List Moment} {m : Machine}
    (h : Course rule w₀ t m) (h₀ : w₀.disturbances = []) : m.world.disturbances = [] := by
  induction h with
  | start => exact h₀
  | ask _ _ _ ih => exact ih
  | answer _ _ _ ih => exact ih
  | item _ ih => exact World.calm_carryOut ih _

/-- A machine returns from a call in the moments `t`, the latest first, and leaves the world `w`. -/
def Machine.Returns (m : Machine) (t : List Moment) (w : World) : Prop :=
  m.advance t.length = ⟨w, []⟩ ∧ Machine.moments t.length m = t

/-- A machine with an empty agenda after `n` moments has returned. -/
theorem Machine.returns_of_isEmpty {m : Machine} {n : Nat} (hn : (moments n m).length = n)
    (h : (m.advance n).agenda.isEmpty = true) : m.Returns (moments n m) (m.advance n).world := by
  unfold Returns
  rw [hn]
  refine ⟨?_, rfl⟩
  generalize m.advance n = m' at h ⊢
  obtain ⟨w, agenda⟩ := m'
  obtain rfl : agenda = [] := List.isEmpty_iff.mp h
  rfl

/-- Every call returns, unless a client answers or the pool is disturbed. -/
theorem Machine.exists_returns {w : World} (h : w.disturbances = []) (token : Nat) (c : Command) :
    ∃ t w', (asked w token c).Returns t w' := by
  obtain ⟨t, w', ht, -⟩ := w.exists_completes h (.obey token c)
  exact ⟨t, w', ht.advance []⟩

end TaskGrid
