import TaskGrid.Proofs.Agreement
import TaskGrid.Proofs.Waiting

/-!
# When an action becomes ready

An action becomes ready when all that it reads was *found*: it was available when the action was
accepted, or its name was announced since.  What was found once is not looked at again.  So an
action can become ready while a replica that it found before is gone, and a run is sound only as
far as this happens not to be (`Machine.Course.promotionSound_iff`).

* `Moment.finds`, `found`: which dependencies an action found in a course.
* `Machine.Course.finding`: an action misses what it did not find, and it is blocked while it misses
  anything.
* `PromotionSound`: all that an action reads can be read when it becomes ready.
-/

namespace TaskGrid

/-! ## What was found -/

/-- Whether at a moment an action finds a datum: the datum wakes after the action was accepted, or
it is available when the action is accepted. -/
def Moment.finds (x : Moment) (id : Nat) (name : String) : Bool :=
  match x.deed with
  | .wake n => n = name && id < x.world.schedule.nextId
  | .submit _ _ => id = x.world.schedule.nextId && x.world.catalog.isAvailable name
  | _ => false

/-- Whether in a course an action found a datum. -/
def found (t : List Moment) (id : Nat) (name : String) : Bool := t.any fun x => x.finds id name

/-- Whether in a course an action found all of its dependencies. -/
def foundAll (t : List Moment) (id : Nat) (task : Submission) : Bool :=
  task.dependencies.all (found t id)

/-- At a moment an action becomes ready. -/
def Moment.Promotes (x : Moment) (id : Nat) (task : Submission) : Prop :=
  (∃ y, (x.world.carryOut x.item).1.schedule.actions.get? id = some y ∧ y.state = .ready ∧
      y.action.task = task) ∧
    ∀ y, x.world.schedule.actions.get? id = some y → y.state ≠ .ready

/-- Whenever in a course an action becomes ready, all that it reads can be read. -/
def PromotionSound (t : List Moment) : Prop :=
  ∀ x ∈ t, ∀ id task, x.Promotes id task →
    ∀ name ∈ task.dependencies, x.world.catalog.isAvailable name = true

@[simp] theorem found_cons (x : Moment) (t : List Moment) (id : Nat) (name : String) :
    found (x :: t) id name = (x.finds id name || found t id name) := rfl

theorem foundAll_iff {t : List Moment} {id : Nat} {task : Submission} :
    foundAll t id task = true ↔ ∀ name ∈ task.dependencies, found t id name = true :=
  List.all_eq_true

/-! ## How actions proceed -/

namespace Schedule

/-- From one table to another, who is live was live in the same state, or it was not blocked and now
holds capacity. -/
def Proceeds (s t : Schedule) : Prop :=
  ∀ id y, t.standing? id = some y → ∃ x, s.standing? id = some x ∧
    (y.state = x.state ∨ x.state ≠ .blocked ∧ y.state.holdsCapacity = true)

variable {s t : Schedule}

theorem proceeds_of_dismissed (h : ∀ j, t.standing? j = none ∨ t.standing? j = s.standing? j) :
    s.Proceeds t := by
  intro id y hy
  rw [(h id).resolve_left (by simp [hy])] at hy
  exact ⟨y, hy, .inl rfl⟩

theorem proceeds_markRunning {id : Nat} (h : s.markRunning? id = some t) : s.Proceeds t := by
  obtain ⟨-, -, x, hx, hc, ht⟩ := markRunning?_eq_some h
  intro i y hy
  rw [ht] at hy
  split at hy
  · next hi =>
    rw [← Option.some_inj.mp hy]
    refine ⟨x, hi ▸ hx, .inr ⟨fun hb => ?_, rfl⟩⟩
    rw [hb] at hc
    cases hc
  · exact ⟨y, hy, .inl rfl⟩

end Schedule

namespace World

variable {w : World} {a : List Item}

/-- A pass that nothing disturbs binds ready actions only. -/
theorem proceeds_passed (ha : Agrees w.schedule w.pool a) (hcalm : w.disturbances = []) :
    w.schedule.Proceeds w.passed.schedule := by
  have hsteady := ha.steady w.catalog w.scored
  rw [← hcalm] at hsteady
  refine (Pass.run_preserves w.policy hsteady (P := fun s _ => w.schedule.Proceeds s)
    (fun id y hy => ⟨y, hy, .inl rfl⟩) (fun {s _ x key i t _} _ hs hb => ?_)
    fun {s t _} hs hre => ?_).2
  · intro id y hy
    rw [hb.standing?] at hy
    split at hy
    · next hid =>
      obtain ⟨z, hz, hst⟩ := hs x.action.id x hb.live
      rw [← Option.some_inj.mp hy]
      refine ⟨z, hid ▸ hz, .inr ⟨fun hblocked => ?_, rfl⟩⟩
      rw [hb.state, hblocked] at hst
      rcases hst with h | h <;> simp at h
    · exact hs id y hy
  · intro id y hy
    exact hs id y (hre.standing? id ▸ hy)

theorem Moves.proceeds {d : Deed} {s : Schedule} (h : w.Moves d s)
    (ha : Agrees w.schedule w.pool a) (hcalm : w.disturbances = []) (hw : ∀ n, d ≠ .wake n)
    (hs : ∀ task m, d ≠ .submit task m) : w.schedule.Proceeds s := by
  cases h with
  | same _ _ => exact fun id y hy => ⟨y, hy, .inl rfl⟩
  | pass => exact proceeds_passed ha hcalm
  | wake name => exact absurd rfl (hw name)
  | submit task monitor => exact absurd rfl (hs task monitor)
  | conclude ending _ =>
    refine Schedule.proceeds_of_dismissed fun j => ?_
    rw [Schedule.standing?_conclude]
    split
    · exact .inl rfl
    · exact .inr rfl
  | run marked => exact Schedule.proceeds_markRunning marked
  | fail key ids =>
    refine Schedule.proceeds_of_dismissed fun j => ?_
    rw [Schedule.standing?_abandon]
    split
    · exact .inl rfl
    · exact .inr rfl

end World

/-! ## The invariant -/

/-- An action misses what it did not find, and is blocked as long as it misses anything. -/
structure Finding (t : List Moment) (s : Schedule) : Prop where
  /-- Only an action that was accepted found anything. -/
  old : ∀ {id name}, found t id name = true → id < s.nextId
  /-- An action misses what it did not find of what it reads. -/
  mem_missing : ∀ {id x}, s.actions.get? id = some x → ∀ name,
    name ∈ x.missing ↔ name ∈ x.action.task.dependencies ∧ found t id name = false
  /-- It is blocked as long as it misses anything. -/
  blocked_iff : ∀ {id x}, s.actions.get? id = some x →
    (x.state = .blocked ↔ ∃ name, name ∈ x.missing)

theorem finding_empty (limit : Nat) : Finding [] { historyLimit := limit } where
  old h := by cases h
  mem_missing h := by cases h
  blocked_iff h := by cases h

namespace Finding

variable {t : List Moment} {s : Schedule} {id : Nat} {x : Entry}

/-- An action is blocked exactly as long as it did not find everything. -/
theorem blocked_iff_foundAll (h : Finding t s) (hx : s.actions.get? id = some x) :
    x.state = .blocked ↔ foundAll t id x.action.task = false := by
  rw [h.blocked_iff hx, ← Bool.not_eq_true, foundAll_iff]
  simp only [h.mem_missing hx, ← Bool.not_eq_true]
  push Not
  rfl

end Finding

theorem Moment.finds_of_other {x : Moment} (hw : ∀ n, x.deed ≠ .wake n)
    (hs : ∀ task m, x.deed ≠ .submit task m) (id : Nat) (name : String) :
    x.finds id name = false := by
  unfold finds
  split
  · next h => exact absurd h (hw _)
  · next h => exact absurd h (hs _ _)
  · rfl

theorem Moment.finds_of_wake {x : Moment} {n : String} (h : x.deed = .wake n) (id : Nat)
    (name : String) :
    x.finds id name = (decide (n = name) && decide (id < x.world.schedule.nextId)) := by
  unfold finds
  rw [h]

theorem Moment.finds_of_submit {x : Moment} {task : Submission} {monitor : Monitor}
    (h : x.deed = .submit task monitor) (id : Nat) (name : String) :
    x.finds id name =
      (decide (id = x.world.schedule.nextId) && x.world.catalog.isAvailable name) := by
  unfold finds
  rw [h]

namespace Machine

variable {rule : Conduct} {policy : Policy} {localNodes : List String} {withholds : Bool}
  {limit : Nat} {t : List Moment} {m : Machine}

section Step

variable {w : World} {i : Item} {rest : List Item}

/-- Who waits for a name that wakes finds it. -/
theorem finding_wake (h : Finding t w.schedule) (hag : InAgreement ⟨w, i :: rest⟩)
    (hwake : Wakeful ⟨w, i :: rest⟩) {n : String} (hd : Moment.deed ⟨w, i⟩ = .wake n) :
    Finding (⟨w, i⟩ :: t) (w.schedule.wake n).1 := by
  have hfinds := Moment.finds_of_wake hd
  have hnext : (w.schedule.wake n).1.nextId = w.schedule.nextId :=
    (w.schedule.promotes_wake n).1
  obtain ⟨hback, -⟩ := w.schedule.wake_back n
  refine ⟨fun {id name} hf => ?_, fun {id y} hy name => ?_, fun {id y} hy => ?_⟩
  · rw [found_cons, hfinds, Bool.or_eq_true, Bool.and_eq_true, decide_eq_true_eq] at hf
    rw [hnext]
    rcases hf with ⟨-, hlt⟩ | hf
    · exact of_decide_eq_true hlt
    · exact h.old hf
  · obtain ⟨x, hx, hact, hmiss, -⟩ := hback hy
    have hlisted (hn : name ∈ x.missing) (he : name = n) :
        id ∈ (w.schedule.waiting n).toList :=
      SortedSet.mem_toList.mpr (hwake.waits.listed hx (he ▸ hn))
    rw [hmiss, h.mem_missing hx, hact, found_cons, hfinds, Bool.or_eq_false_iff,
      Bool.and_eq_false_iff, decide_eq_false_iff_not, decide_eq_false_iff_not]
    have hlt : id < w.schedule.nextId :=
      hag.agrees.sound.old (Schedule.standing?_eq_some_iff.mpr ⟨x, hx, rfl⟩)
    constructor
    · rintro ⟨⟨hdep, hf⟩, hno⟩
      refine ⟨hdep, .inl fun he => hno ⟨hlisted ?_ he.symm, he.symm⟩, hf⟩
      exact (h.mem_missing hx name).mpr ⟨hdep, hf⟩
    · rintro ⟨hdep, hne | hge, hf⟩
      · exact ⟨⟨hdep, hf⟩, fun hc => hne hc.2.symm⟩
      · exact absurd hlt hge
  · obtain ⟨x, hx, -, hmiss, hst, -⟩ := hback hy
    rw [hst, h.blocked_iff hx]
    constructor
    · rintro ⟨⟨name, hn⟩, hsome⟩
      by_cases hid : id ∈ (w.schedule.waiting n).toList
      · exact hsome hid
      · exact ⟨name, (hmiss name).mpr ⟨hn, fun hc => hid hc.1⟩⟩
    · rintro ⟨name, hn⟩
      exact ⟨⟨name, ((hmiss name).mp hn).1⟩, fun _ => ⟨name, hn⟩⟩

/-- A new action finds what is available. -/
theorem finding_accept (h : Finding t w.schedule) {task : Submission} {monitor : Monitor}
    (hd : Moment.deed ⟨w, i⟩ = .submit task monitor) :
    Finding (⟨w, i⟩ :: t) (w.schedule.accept w.catalog task monitor).2.1 := by
  have hfinds := Moment.finds_of_submit hd
  have hfresh (name : String) : found t w.schedule.nextId name = false := by
    cases hf : found t w.schedule.nextId name with
    | false => rfl
    | true => exact absurd (h.old hf) (Nat.lt_irrefl _)
  refine ⟨fun {id name} hf => ?_, fun {id y} hy name => ?_, fun {id y} hy => ?_⟩
  · rw [Schedule.nextId_accept]
    rw [found_cons, hfinds, Bool.or_eq_true, Bool.and_eq_true, decide_eq_true_eq] at hf
    rcases hf with ⟨hid, -⟩ | hf
    · exact Nat.lt_succ_of_le (Nat.le_of_eq hid)
    · exact Nat.lt_succ_of_lt (h.old hf)
  · rcases w.schedule.accept_back w.catalog task monitor hy with
      ⟨hid, hx, -⟩ | ⟨rfl, htask, hmiss, -, -⟩
    · rw [h.mem_missing hx, found_cons, hfinds, decide_eq_false hid, Bool.false_and, Bool.false_or]
    · rw [hmiss, htask, found_cons, hfinds, decide_eq_true rfl, Bool.true_and, hfresh,
        Bool.or_false]
  · rcases w.schedule.accept_back w.catalog task monitor hy with ⟨-, hx, -⟩ | ⟨-, -, -, hst, -⟩
    · exact h.blocked_iff hx
    · exact hst

/-- Nobody finds anything else. -/
theorem finding_of_other (h : Finding t w.schedule) (hag : InAgreement ⟨w, i :: rest⟩)
    (hw : ∀ n, Moment.deed ⟨w, i⟩ ≠ .wake n)
    (hs : ∀ task monitor, Moment.deed ⟨w, i⟩ ≠ .submit task monitor) :
    Finding (⟨w, i⟩ :: t) (w.carryOut i).1.schedule := by
  have hmoves := (w.does_carryOut i).moves
  have hback {id : Nat} {y : Entry} (hy : (w.carryOut i).1.schedule.actions.get? id = some y) :=
    (hmoves.sustains hw hs).back hy
  have hfound (id : Nat) (name : String) : found (⟨w, i⟩ :: t) id name = found t id name := by
    rw [found_cons, Moment.finds_of_other hw hs, Bool.false_or]
  refine ⟨fun {id name} hf => ?_, fun {id y} hy name => ?_, fun {id y} hy => ?_⟩
  · exact Nat.lt_of_lt_of_le (h.old (hfound id name ▸ hf)) (hmoves.nextId_le hag.agrees hag.calm)
  · obtain ⟨x, hx, hact, hmiss, -⟩ := hback hy
    rw [hmiss, hact, hfound]
    exact h.mem_missing hx name
  · obtain ⟨x, hx, -, hmiss, hst⟩ := hback hy
    rw [hmiss, ← h.blocked_iff hx]
    refine ⟨hst, fun hb => ?_⟩
    obtain ⟨z, hz, hstate⟩ := hmoves.proceeds hag.agrees hag.calm hw hs id y.standing
      (Schedule.standing?_eq_some_iff.mpr ⟨y, hy, rfl⟩)
    obtain ⟨x', hx', rfl⟩ := Schedule.standing?_eq_some_iff.mp hz
    rw [hx] at hx'
    obtain rfl := Option.some_inj.mp hx'
    rcases hstate with he | ⟨hne, -⟩
    · exact (show y.state = x.state from he).trans hb
    · exact absurd hb hne

theorem finding_step (h : Finding t w.schedule) (hag : InAgreement ⟨w, i :: rest⟩)
    (hwake : Wakeful ⟨w, i :: rest⟩) : Finding (⟨w, i⟩ :: t) (w.carryOut i).1.schedule := by
  rcases (w.does_carryOut i).moves.wakes_or_accepts with
    ⟨n, hd, hs⟩ | ⟨task, monitor, hd, hs⟩ | ⟨hw, hs⟩
  · rw [hs]
    exact finding_wake h hag hwake hd
  · rw [hs]
    exact finding_accept h hd
  · exact finding_of_other h hag hw hs

end Step

/-- At every step of a run an action misses what it did not find, and it is blocked as long as it
misses anything. -/
theorem Course.finding (hrule : rule.SparesPool)
    (h : Course rule (World.fresh policy localNodes withholds limit) t m) :
    Finding t m.world.schedule := by
  induction h with
  | start => exact finding_empty limit
  | ask _ _ _ ih => exact ih
  | item hc ih => exact finding_step ih (hc.inAgreement hrule) hc.wakeful
  | answer _ _ _ ih => exact ih

section Promotes

variable {w : World} {i : Item} {rest : List Item} {id : Nat} {task : Submission}

/-- Who becomes ready found the last of its dependencies, or is accepted with all of them
available. -/
theorem finds_of_promotes (hbefore : Finding t w.schedule)
    (hafter : Finding (⟨w, i⟩ :: t) (w.carryOut i).1.schedule)
    (hag : InAgreement ⟨w, i :: rest⟩) (h : Moment.Promotes ⟨w, i⟩ id task) :
    (∃ x, w.schedule.actions.get? id = some x ∧ x.action.task = task ∧
      foundAll t id task = false ∧ foundAll (⟨w, i⟩ :: t) id task = true) ∨
    id = w.schedule.nextId ∧ (∃ monitor, Moment.deed ⟨w, i⟩ = .submit task monitor) ∧
      ∀ name ∈ task.dependencies, w.catalog.isAvailable name = true := by
  obtain ⟨⟨y, hy, hready, rfl⟩, hnot⟩ := h
  -- whoever is ready found everything
  have hall : foundAll (⟨w, i⟩ :: t) id y.action.task = true := by
    cases hf : foundAll (⟨w, i⟩ :: t) id y.action.task with
    | true => rfl
    | false =>
      rw [(hafter.blocked_iff_foundAll hy).mpr hf] at hready
      cases hready
  have hmoves := (w.does_carryOut i).moves
  have hy : (w.carryOut i).1.schedule.actions.get? id = some y := hy
  rcases hmoves.wakes_or_accepts with ⟨n, hd, hs⟩ | ⟨task, monitor, hd, hs⟩ | ⟨hw, hs⟩
  · rw [hs] at hy
    obtain ⟨x, hx, hact, -, -, hkept⟩ := (w.schedule.wake_back n).1 hy
    refine .inl ⟨x, hx, by rw [hact], ?_, hall⟩
    rw [hact, ← hbefore.blocked_iff_foundAll hx]
    by_contra hne
    exact hnot x hx ((hkept hne).symm.trans hready)
  · rw [hs] at hy
    rcases w.schedule.accept_back w.catalog task monitor hy with
      ⟨-, hx, -⟩ | ⟨hid, htask, hmiss, hst, -⟩
    · exact absurd hready (hnot y hx)
    · refine .inr ⟨hid, ⟨monitor, by rw [hd, htask]⟩, fun name hn => ?_⟩
      by_contra hno
      have hblocked := hst.mpr ⟨name, (hmiss name).mpr ⟨htask ▸ hn, Bool.not_eq_true _ ▸ hno⟩⟩
      rw [hready] at hblocked
      cases hblocked
  · obtain ⟨z, hz, hst⟩ := hmoves.proceeds hag.agrees hag.calm hw hs id y.standing
      (Schedule.standing?_eq_some_iff.mpr ⟨y, hy, rfl⟩)
    obtain ⟨x, hx, rfl⟩ := Schedule.standing?_eq_some_iff.mp hz
    have hy' : y.standing.state = .ready := hready
    rw [hy'] at hst
    rcases hst with he | ⟨-, hc⟩
    · exact absurd he.symm (hnot x hx)
    · cases hc

/-- Something is found at a moment by an action that was accepted before only if a name wakes. -/
theorem wakes_of_finds (hlt : id < w.schedule.nextId) (hsome : foundAll t id task = false)
    (hall : foundAll (⟨w, i⟩ :: t) id task = true) : ∃ n, Moment.deed ⟨w, i⟩ = .wake n := by
  by_contra hno
  have hfinds (name : String) : Moment.finds ⟨w, i⟩ id name = false := by
    by_cases hsub : ∃ task monitor, Moment.deed ⟨w, i⟩ = .submit task monitor
    · obtain ⟨task, monitor, hd⟩ := hsub
      rw [Moment.finds_of_submit hd, decide_eq_false (Nat.ne_of_lt hlt), Bool.false_and]
    · exact Moment.finds_of_other (fun n hn => hno ⟨n, hn⟩)
        (fun task monitor he => hsub ⟨task, monitor, he⟩) id name
  have hsame : foundAll (⟨w, i⟩ :: t) id task = foundAll t id task := by
    unfold foundAll
    congr 1
    funext name
    rw [found_cons, hfinds, Bool.false_or]
  rw [hsame, hsome] at hall
  cases hall

/-- Who finds the last of its dependencies becomes ready. -/
theorem promotes_of_finds (hbefore : Finding t w.schedule)
    (hafter : Finding (⟨w, i⟩ :: t) (w.carryOut i).1.schedule)
    (hag : InAgreement ⟨w, i :: rest⟩) {x : Entry} (hx : w.schedule.actions.get? id = some x)
    (hsome : foundAll t id x.action.task = false)
    (hall : foundAll (⟨w, i⟩ :: t) id x.action.task = true) :
    Moment.Promotes ⟨w, i⟩ id x.action.task := by
  have hblocked : x.state = .blocked := (hbefore.blocked_iff_foundAll hx).mpr hsome
  have hstanding := Schedule.standing?_eq_some_iff.mpr ⟨x, hx, rfl⟩
  obtain ⟨n, hd⟩ := wakes_of_finds (hag.agrees.sound.old hstanding) hsome hall
  have hst : (w.carryOut i).1.schedule = (w.schedule.wake n).1 := by
    rcases (w.does_carryOut i).moves.wakes_or_accepts with
      ⟨m, hm, hs⟩ | ⟨task, monitor, hm, -⟩ | ⟨hw, -⟩
    · rw [hd] at hm
      cases hm
      exact hs
    · rw [hd] at hm
      cases hm
    · exact absurd hd (hw n)
  -- it is still live, and what became of it is not blocked
  have hafterward (y : Entry) (hy : (w.carryOut i).1.schedule.actions.get? id = some y) :
      y.action = x.action ∧ y.state ≠ .blocked := by
    obtain ⟨x', hx', hact, -, -, -⟩ := (w.schedule.wake_back n).1 (hst ▸ hy)
    rw [hx] at hx'
    obtain rfl := Option.some_inj.mp hx'
    refine ⟨hact, fun hb => ?_⟩
    rw [hafter.blocked_iff_foundAll hy, hact, hall] at hb
    cases hb
  have hready : ∃ y, (w.carryOut i).1.schedule.actions.get? id = some y ∧ y.state = .ready := by
    rcases (w.schedule.promotes_wake n).2 id with he | ⟨z, -, -, he⟩
    · rw [hstanding, ← hst] at he
      obtain ⟨y, hy, he⟩ := Schedule.standing?_eq_some_iff.mp he
      exact absurd ((congrArg Standing.state he).trans hblocked) (hafterward y hy).2
    · rw [← hst] at he
      obtain ⟨y, hy, he⟩ := Schedule.standing?_eq_some_iff.mp he
      exact ⟨y, hy, congrArg Standing.state he⟩
  obtain ⟨y, hy, hr⟩ := hready
  refine ⟨⟨y, hy, hr, by rw [(hafterward y hy).1]⟩, fun x' hx' hr' => ?_⟩
  have hx' : w.schedule.actions.get? id = some x' := hx'
  rw [hx] at hx'
  rw [← Option.some_inj.mp hx', hblocked] at hr'
  cases hr'

/-- Who is accepted with all of its dependencies available is ready. -/
theorem promotes_of_available (hag : InAgreement ⟨w, i :: rest⟩) {monitor : Monitor}
    (hd : Moment.deed ⟨w, i⟩ = .submit task monitor)
    (hav : ∀ name ∈ task.dependencies, w.catalog.isAvailable name = true) :
    Moment.Promotes ⟨w, i⟩ w.schedule.nextId task := by
  have hst : (w.carryOut i).1.schedule = (w.schedule.accept w.catalog task monitor).2.1 := by
    rcases (w.does_carryOut i).moves.wakes_or_accepts with
      ⟨m, hm, -⟩ | ⟨task', monitor', hm, hs⟩ | ⟨-, hs⟩
    · rw [hd] at hm
      cases hm
    · rw [hd] at hm
      cases hm
      exact hs
    · exact absurd hd (hs task monitor)
  have hready : Schedule.acceptsReady w.catalog task = true := by
    unfold Schedule.acceptsReady
    rw [SortedSet.isEmpty_iff]
    intro name hn
    rw [SortedSet.mem_ofList, List.mem_filter, Bool.not_eq_true'] at hn
    rw [hav name hn.1] at hn
    cases hn.2
  have hnew := w.schedule.standing?_accept w.catalog task monitor w.schedule.nextId
  rw [if_pos rfl, if_pos hready, ← hst] at hnew
  obtain ⟨y, hy, he⟩ := Schedule.standing?_eq_some_iff.mp hnew
  refine ⟨⟨y, hy, congrArg Standing.state he, ?_⟩, fun x hx => ?_⟩
  · exact congrArg (fun z : Standing => z.action.task) he
  · have hlt := hag.agrees.sound.old (Schedule.standing?_eq_some_iff.mpr ⟨x, hx, rfl⟩)
    exact absurd hlt (Nat.lt_irrefl _)

/-- An action becomes ready at the moment at which it finds the last of its dependencies, or when it
is accepted with all of them available. -/
theorem Course.promotes_iff (hrule : rule.SparesPool)
    (h : Course rule (World.fresh policy localNodes withholds limit) t ⟨w, i :: rest⟩) :
    Moment.Promotes ⟨w, i⟩ id task ↔
      (∃ x, w.schedule.actions.get? id = some x ∧ x.action.task = task ∧
        foundAll t id task = false ∧ foundAll (⟨w, i⟩ :: t) id task = true) ∨
      id = w.schedule.nextId ∧ (∃ monitor, Moment.deed ⟨w, i⟩ = .submit task monitor) ∧
        ∀ name ∈ task.dependencies, w.catalog.isAvailable name = true := by
  have hag := h.inAgreement hrule
  have hbefore : Finding t w.schedule := h.finding hrule
  have hafter : Finding (⟨w, i⟩ :: t) (w.carryOut i).1.schedule := h.item.finding hrule
  constructor
  · exact finds_of_promotes hbefore hafter hag
  · rintro (⟨x, hx, rfl, hsome, hall⟩ | ⟨rfl, ⟨monitor, hd⟩, hav⟩)
    · exact promotes_of_finds hbefore hafter hag hx hsome hall
    · exact promotes_of_available hag hd hav

end Promotes

/-- A run is sound exactly if, whenever an action finds the last of its dependencies, all those that
it found before can still be read. -/
theorem Course.promotionSound_iff (hrule : rule.SparesPool)
    (h : Course rule (World.fresh policy localNodes withholds limit) t m) :
    PromotionSound t ↔ ∀ t₁ x t₀, t = t₁ ++ x :: t₀ → ∀ id y,
      x.world.schedule.actions.get? id = some y → foundAll t₀ id y.action.task = false →
      foundAll (x :: t₀) id y.action.task = true →
      ∀ name ∈ y.action.task.dependencies, x.world.catalog.isAvailable name = true := by
  constructor
  · rintro hsound t₁ x t₀ rfl id y hy hsome hall
    obtain ⟨rest, hx⟩ := h.before
    refine hsound x (List.mem_append_right _ List.mem_cons_self) id y.action.task ?_
    exact (hx.promotes_iff hrule).mpr (.inl ⟨y, hy, rfl, hsome, hall⟩)
  · intro hlast x hx id task hp
    obtain ⟨t₁, t₀, rfl⟩ := List.append_of_mem hx
    obtain ⟨rest, hbefore⟩ := h.before
    rcases (hbefore.promotes_iff hrule).mp hp with ⟨y, hy, rfl, hsome, hall⟩ | ⟨-, -, hav⟩
    · exact hlast t₁ x t₀ rfl id y hy hsome hall
    · exact hav

/-! ### A datum that is lost while its reader waits for another -/

/-- A datum has one replica, on a host. -/
def storingFirst : Machine :=
  asked (.fresh .fifo [] false 8) 0 (.addReplica "x" (.ownFile "n" "/x"))

/-- A task reads it, and another one that is not there yet. -/
def awaitingSecond : Machine :=
  asked (storingFirst.advance 3).world 1
    (.submit (((Submission.single (.cpus 1) "h").reading "x").reading "y") .silent)

/-- The replica of the first is taken away. -/
def losingFirst : Machine := asked (awaitingSecond.advance 6).world 2 (.removeHost "x" "n")

/-- Then the second one appears. -/
def storingSecond : Machine :=
  asked (losingFirst.advance 2).world 3 (.addReplica "y" (.ownFile "m" "/y"))

/-- The moments until all calls have returned. -/
def losingMoments : List Moment :=
  moments 8 storingSecond ++ (moments 2 losingFirst ++ (moments 6 awaitingSecond ++
    (moments 3 storingFirst ++ [])))

theorem course_losing :
    Course (.quiet fun c => c.surface = .scheduler ∨ c.surface = .catalog)
      (.fresh .fifo [] false 8) losingMoments ⟨(storingSecond.advance 8).world, []⟩ :=
  (((Course.start.call 0 3 (show _ ∨ _ by decide) (by decide +kernel)).call 1 6
    (show _ ∨ _ by decide) (by decide +kernel)).call 2 2 (show _ ∨ _ by decide)
    (by decide +kernel)).call 3 8 (show _ ∨ _ by decide) (by decide +kernel)

/-- The task becomes ready although the first datum is gone. -/
theorem not_promotionSound_losing : ¬ PromotionSound losingMoments := by
  intro hsound
  have hlost : losingMoments.any (fun x =>
      ((x.world.carryOut x.item).1.schedule.actions.get? 1).any (fun y =>
        y.state = .ready ∧ "x" ∈ y.action.task.dependencies) &&
      (x.world.schedule.actions.get? 1).all (fun y => y.state ≠ .ready) &&
      !x.world.catalog.isAvailable "x") = true := by decide +kernel
  obtain ⟨x, hx, hlost⟩ := List.any_eq_true.mp hlost
  rw [Bool.and_eq_true, Bool.and_eq_true] at hlost
  obtain ⟨⟨hafter, hbefore⟩, hgone⟩ := hlost
  obtain ⟨y, hy, hnow⟩ := (Option.any_eq_true _ _).mp hafter
  obtain ⟨hready, hread⟩ := of_decide_eq_true hnow
  have hnot (z : Entry) (hz : x.world.schedule.actions.get? 1 = some z) : z.state ≠ .ready :=
    of_decide_eq_true ((Option.all_eq_true _ _).mp hbefore z hz)
  rw [hsound x hx 1 y.action.task ⟨⟨y, hy, hready, rfl⟩, hnot⟩ "x" hread] at hgone
  cases hgone

/-- Not every run is sound. -/
theorem exists_course_not_promotionSound :
    ∃ t m, Course (.quiet fun c => c.surface = .scheduler ∨ c.surface = .catalog)
      (.fresh .fifo [] false 8) t m ∧ ¬ PromotionSound t :=
  ⟨losingMoments, _, course_losing, not_promotionSound_losing⟩

/-- So an action of this run finds the last of its dependencies when another one is gone. -/
theorem finds_last_losing :
    ¬ ∀ t₁ x t₀, losingMoments = t₁ ++ x :: t₀ → ∀ id y,
      x.world.schedule.actions.get? id = some y → foundAll t₀ id y.action.task = false →
      foundAll (x :: t₀) id y.action.task = true →
      ∀ name ∈ y.action.task.dependencies, x.world.catalog.isAvailable name = true := by
  have hasks (c : Command) (h : c.surface = .scheduler ∨ c.surface = .catalog) :
      c.surface ≠ .pool := by
    intro hp
    rw [hp] at h
    rcases h with h | h <;> cases h
  have hrule : (Conduct.quiet fun c => c.surface = .scheduler ∨ c.surface = .catalog).SparesPool :=
    ⟨hasks _, False.elim⟩
  exact fun hlast =>
    not_promotionSound_losing ((Course.promotionSound_iff hrule course_losing).mpr hlast)

end Machine

end TaskGrid
