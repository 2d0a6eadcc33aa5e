import TaskGrid.Proofs.Sorted
import TaskGrid.Proofs.WrittenForms
import TaskGrid.Wire.Request

/-!
# Records are faithful

Every type that is written as an object, or by name, is read back from what is written.  A record
fits if its parts do, so only numbers, priorities and application identifiers bound anything.

The fields of a record are read in a fixed order.  Each proof follows that order: a step for each
field, by which the field is found in what was written and its value fits.

* `Wire.strings?_entries`: the properties of an adaptor are read back.
* `Wire.integer?_eq_some_iff`: what priorities are read.
* `Wire.EventFits`: which events are read back.
-/

namespace TaskGrid

namespace Wire

/-! ## Data -/

instance : Faithful Replica where
  Fits _ _ := True
  decode_encode {_ r} _ := by cases r <;> rfl
  fits_of_decode _ := trivial

instance : Faithful RescueOrder where
  Fits _ _ := True
  decode_encode _ :=
    record?_obj <|
    field_bind (by rfl) trivial <| field_bind (by rfl) trivial <|
    field_bind (by rfl) trivial rfl
  fits_of_decode _ := trivial

/-- The size and the number of copies have 64 bits. -/
instance : Faithful DataInfo where
  Fits known d := Fits known d.size ∧ Fits known d.copiesInFlight
  decode_encode h :=
    record?_obj <|
    field_bind (by rfl) trivial <| field_bind (by rfl) (fun _ _ => trivial) <|
    field_bind (by rfl) (fun _ _ => trivial) <| fieldOr_bind (by rfl) (fun _ _ => trivial) <|
    fieldOr_bind (by rfl) (fun _ _ => trivial) <| field_bind (by rfl) trivial <|
    field_bind (by rfl) h.1 <| field_bind (by rfl) trivial <| field_bind (by rfl) h.2 rfl
  fits_of_decode {_ j d} h := by
    obtain ⟨fields, h⟩ := exists_of_record? h
    simp only [Option.bind_eq_bind, Option.bind_eq_some_iff, Option.pure_def,
      Option.some.injEq] at h
    obtain ⟨_, -, _, -, _, -, _, -, _, -, _, -, _, hsize, _, -, _, hcopies, rfl⟩ := h
    exact ⟨fits_of_field hsize, fits_of_field hcopies⟩

/-! ## Workers -/

/-- The scope is known. -/
instance : Faithful WorkerKey where
  Fits known k := Fits known k.scope
  decode_encode h :=
    record?_obj <| field_bind (by rfl) trivial <| fieldOr_bind (by rfl) h rfl
  fits_of_decode {_ j k} h := by
    obtain ⟨fields, h⟩ := exists_of_record? h
    simp only [Option.bind_eq_bind, Option.bind_eq_some_iff, Option.pure_def,
      Option.some.injEq] at h
    obtain ⟨_, -, _, hscope, rfl⟩ := h
    exact fits_of_fieldOption hscope

/-- Properties are read back as they are listed. -/
theorem stringFields?_map (l : List (String × String)) :
    stringFields? (l.map fun e => (e.1, .str e.2)) = some l := by
  induction l with
  | nil => rfl
  | cons e l ih =>
    rw [List.map_cons, stringFields?, ih]
    rfl

theorem strings?_entries (m : SortedMap String String) :
    strings? (.obj (m.entries.map fun e => (e.1, .str e.2))) = some m := by
  rw [strings?, stringFields?_map, Option.map_some, SortedMap.ofList_entries]

instance : Faithful Adaptor where
  Fits _ _ := True
  decode_encode {_ a} _ :=
    record?_obj <|
    field_bind (by rfl) trivial <| defaulted?_bind (by rfl) (strings?_entries a.properties) rfl
  fits_of_decode _ := trivial

/-- The key is known, and the numbers have 64 bits. -/
instance : Faithful WorkerView where
  Fits known v := Fits known v.key ∧ Fits known v.seq ∧ Fits known v.queueDepth
  decode_encode h :=
    record?_obj <|
    field_bind (by rfl) h.1 <| field_bind (by rfl) h.2.1 <| field_bind (by rfl) trivial <|
    field_bind (by rfl) trivial <| field_bind (by rfl) trivial <|
    field_bind (by rfl) h.2.2 <| field_bind (by rfl) trivial rfl
  fits_of_decode {_ j v} h := by
    obtain ⟨fields, h⟩ := exists_of_record? h
    simp only [Option.bind_eq_bind, Option.bind_eq_some_iff, Option.pure_def,
      Option.some.injEq] at h
    obtain ⟨_, hkey, _, hseq, _, -, _, -, _, -, _, hqueue, _, -, rfl⟩ := h
    exact ⟨fits_of_field hkey, fits_of_field hseq, fits_of_field hqueue⟩

/-! ## Actions and events -/

instance : Faithful Implementation where
  Fits _ _ := True
  decode_encode _ :=
    record?_obj <| field_bind (by rfl) trivial <| field_bind (by rfl) trivial rfl
  fits_of_decode _ := trivial

/-- Priorities have 32 bits, one of them for the sign. -/
def IsPriority (n : Int) : Prop := -2147483648 ≤ n ∧ n < 2147483648

theorem integer?_eq_some_iff {j : Json} {n : Int} :
    j.integer? 32 = some n ↔ j = .int n ∧ IsPriority n := by
  constructor
  · intro h
    unfold Json.integer? at h
    split at h
    · split at h
      · next hn =>
        cases h
        exact ⟨rfl, hn⟩
      · cases h
    · cases h
  · rintro ⟨rfl, hn⟩
    exact if_pos hn

theorem isPriority_of_priorityOr {j : Json} {name : String} {n : Int}
    (h : priorityOr j name = some n) : IsPriority n := by
  unfold priorityOr Json.defaulted? at h
  split at h
  · exact (integer?_eq_some_iff.mp h).2
  · cases h
    exact ⟨by decide, by decide⟩

/-- The priorities are within their bounds. -/
instance : Faithful Submission where
  Fits _ s := IsPriority s.priority ∧ IsPriority s.groupPriority
  decode_encode h :=
    record?_obj <|
    field_bind (by rfl) (fun _ _ => trivial) <| fieldOr_bind (by rfl) (fun _ _ => trivial) <|
    fieldOr_bind (by rfl) (fun _ _ => trivial) <|
    defaulted?_bind (by rfl) (integer?_eq_some_iff.mpr ⟨rfl, h.1⟩) <|
    defaulted?_bind (by rfl) (integer?_eq_some_iff.mpr ⟨rfl, h.2⟩) rfl
  fits_of_decode {_ j s} h := by
    obtain ⟨fields, h⟩ := exists_of_record? h
    simp only [Option.bind_eq_bind, Option.bind_eq_some_iff, Option.pure_def,
      Option.some.injEq] at h
    obtain ⟨_, -, _, -, _, -, _, hpriority, _, hgroup, rfl⟩ := h
    exact ⟨isPriority_of_priorityOr hpriority, isPriority_of_priorityOr hgroup⟩

instance : Faithful FailureReason where
  Fits _ _ := True
  decode_encode {_ r} _ := by cases r <;> rfl
  fits_of_decode _ := trivial

instance : Faithful ActionState where
  Fits _ _ := True
  decode_encode {known s} _ := by
    cases s with
    | failed r =>
      have hr : decode known (encode r) = some r := decode_encode trivial
      show (decode known (encode r)).map ActionState.failed = some (.failed r)
      rw [hr, Option.map_some]
    | _ => rfl
  fits_of_decode _ := trivial

/-- A produced value is read from any object with its fields. -/
theorem decode_of_valueFields {known : Nat} {fields : List (String × Json)} {v : ProducedValue}
    (hname : Json.lastNamed? "name" fields = some (encode v.name))
    (htype : Json.lastNamed? "data_type" fields = some (encode v.dataType))
    (hplace : Json.lastNamed? "location" fields = some (encode v.location)) :
    decode known (.obj fields) = some v :=
  field_bind hname trivial <| field_bind htype trivial <| field_bind hplace trivial rfl

instance : Faithful ProducedValue where
  Fits _ _ := True
  decode_encode _ := decode_of_valueFields (by rfl) (by rfl) (by rfl)
  fits_of_decode _ := trivial

theorem ofName?_kindName (k : Event.Kind) : Event.Kind.ofName? k.name = some k := by
  cases k <;> rfl

/-- The numbers of an event have 64 bits, and its worker is known. -/
def EventFits (known : Nat) : Event → Prop
  | .assigned a w i =>
    a ≤ Json.wordLimit ∧ (∀ app ∈ w.scope, app.Known known) ∧ i ≤ Json.wordLimit
  | e => e.action ≤ Json.wordLimit

theorem fits_action {known : Nat} {e : Event} (h : EventFits known e) : Fits known e.action := by
  cases e with
  | assigned => exact h.1
  | _ => exact h

instance : Faithful Event where
  Fits := EventFits
  decode_encode {known e} h := by
    refine variant?_obj <| required?_bind (v := .str e.kind.name) (by cases e <;> rfl) rfl ?_
    rw [ofName?_kindName]
    refine field_bind (by cases e <;> rfl) (fits_action h) ?_
    cases e with
    | assigned a w i => exact field_bind (by rfl) h.2.1 <| field_bind (by rfl) h.2.2 rfl
    | valueProduced a v =>
      have hv : decode known (encode (Event.valueProduced a v)) = some v :=
        decode_of_valueFields (by rfl) (by rfl) (by rfl)
      show (decode known (encode (Event.valueProduced a v)) >>= fun v =>
        pure (Event.valueProduced a v)) = _
      rw [hv]
      rfl
    | failed a r => exact field_bind (by rfl) trivial rfl
    | _ => rfl
  fits_of_decode {known j e} h := by
    obtain ⟨fields, h⟩ := exists_of_variant? h
    simp only [Option.bind_eq_bind, Option.bind_eq_some_iff, Option.pure_def] at h
    obtain ⟨_, -, kind, -, a, ha, h⟩ := h
    have haction : Fits known a := fits_of_field ha
    cases kind with
    | assigned =>
      simp only [Option.bind_eq_some_iff, Option.some.injEq] at h
      obtain ⟨_, hw, _, hi, rfl⟩ := h
      exact ⟨haction, fits_of_field hw, fits_of_field hi⟩
    | valueProduced | failed =>
      obtain ⟨_, -, h⟩ := Option.bind_eq_some_iff.mp h
      cases h
      exact haction
    | _ =>
      cases h
      exact haction

/-- The numbers have 64 bits, and the worker is known. -/
instance : Faithful Assignment where
  Fits known a := Fits known a.action ∧ Fits known a.worker ∧ Fits known a.implementation
  decode_encode h :=
    record?_obj <|
    field_bind (by rfl) h.1 <| field_bind (by rfl) h.2.1 <| field_bind (by rfl) h.2.2 <|
    field_bind (by rfl) trivial <| field_bind (by rfl) trivial rfl
  fits_of_decode {_ j a} h := by
    obtain ⟨fields, h⟩ := exists_of_record? h
    simp only [Option.bind_eq_bind, Option.bind_eq_some_iff, Option.pure_def,
      Option.some.injEq] at h
    obtain ⟨_, haction, _, hworker, _, himplementation, _, -, _, -, rfl⟩ := h
    exact ⟨fits_of_field haction, fits_of_field hworker, fits_of_field himplementation⟩

/-! ## Requests -/

instance : Faithful Offer where
  Fits _ _ := True
  decode_encode _ :=
    record?_obj <|
    field_bind (by rfl) trivial <| fieldOr_bind (by rfl) trivial <|
    fieldOr_bind (by rfl) trivial rfl
  fits_of_decode _ := trivial

instance : Present Offer := ⟨fun _ h => nomatch h⟩

/-- The application is known. -/
instance : Faithful ReduceRequest where
  Fits known r := Fits known r.app
  decode_encode h :=
    record?_obj <|
    field_bind (by rfl) trivial <| field_bind (by rfl) trivial <| fieldOr_bind (by rfl) h rfl
  fits_of_decode {_ j r} h := by
    obtain ⟨fields, h⟩ := exists_of_record? h
    simp only [Option.bind_eq_bind, Option.bind_eq_some_iff, Option.pure_def,
      Option.some.injEq] at h
    obtain ⟨_, -, _, -, _, happ, rfl⟩ := h
    exact fits_of_fieldOption happ

/-- The application is known. -/
instance : Faithful NodeRequest where
  Fits known r := Fits known r.app
  decode_encode h :=
    record?_obj <| field_bind (by rfl) trivial <| fieldOr_bind (by rfl) h rfl
  fits_of_decode {_ j r} h := by
    obtain ⟨fields, h⟩ := exists_of_record? h
    simp only [Option.bind_eq_bind, Option.bind_eq_some_iff, Option.pure_def,
      Option.some.injEq] at h
    obtain ⟨_, -, _, happ, rfl⟩ := h
    exact fits_of_fieldOption happ

instance : Faithful RemoteSource where
  Fits _ _ := True
  decode_encode {_ r} _ := by
    cases r with
    | location r host =>
      exact variant?_obj <| required?_bind (v := .str "location") (by rfl) rfl <|
        field_bind (by rfl) trivial <| fieldOr_bind (by rfl) (fun _ _ => trivial) rfl
    | localAlias name =>
      exact variant?_obj <| required?_bind (v := .str "local_alias") (by rfl) rfl <|
        field_bind (by rfl) trivial rfl
  fits_of_decode _ := trivial

instance : Faithful RemoteData where
  Fits _ _ := True
  decode_encode _ :=
    record?_obj <| field_bind (by rfl) trivial <| field_bind (by rfl) (fun _ _ => trivial) rfl
  fits_of_decode _ := trivial

/-- The task fits. -/
instance : Faithful TaskRequest where
  Fits known r := Fits known r.submission
  decode_encode h :=
    record?_obj <|
    field_bind (by rfl) h <| fieldOr_bind (by rfl) (fun _ _ => trivial) <|
    fieldOr_bind (by rfl) (fun _ _ => trivial) rfl
  fits_of_decode {_ j r} h := by
    obtain ⟨fields, h⟩ := exists_of_record? h
    simp only [Option.bind_eq_bind, Option.bind_eq_some_iff, Option.pure_def,
      Option.some.injEq] at h
    obtain ⟨_, hsubmission, _, -, _, -, rfl⟩ := h
    exact fits_of_field hsubmission

/-- The numbers have 64 bits. -/
instance : Faithful AgentStatus where
  Fits known s :=
    Fits known s.workers ∧ Fits known s.liveActions ∧ Fits known s.readyActions ∧
      Fits known s.sessions
  decode_encode h :=
    record?_obj <|
    field_bind (by rfl) h.1 <| field_bind (by rfl) h.2.1 <| field_bind (by rfl) h.2.2.1 <|
    field_bind (by rfl) h.2.2.2 <| field_bind (by rfl) trivial rfl
  fits_of_decode {_ j s} h := by
    obtain ⟨fields, h⟩ := exists_of_record? h
    simp only [Option.bind_eq_bind, Option.bind_eq_some_iff, Option.pure_def,
      Option.some.injEq] at h
    obtain ⟨_, hworkers, _, hlive, _, hready, _, hsessions, _, -, rfl⟩ := h
    exact ⟨fits_of_field hworkers, fits_of_field hlive, fits_of_field hready,
      fits_of_field hsessions⟩

/-! ## Settings -/

/-- The limit of the history has 64 bits. -/
instance : Faithful Settings where
  Fits known s := Fits known s.historyLimit
  decode_encode {_ s} h :=
    record?_obj (s := Settings.shape) <|
    defaulted?_bind (v := .str s.policy.name) (by rfl) (PolicyChoice.ofName?_name s.policy) <|
    defaulted?_bind (v := .str s.localNode) (by rfl) rfl <|
    defaulted?_bind (v := .bool s.withholds) (by rfl) rfl <|
    defaulted?_bind (by rfl) (decode_encode h) rfl
  fits_of_decode {_ j s} h := by
    replace h : Settings.ofRecord? j = some s := h
    obtain ⟨fields, h⟩ := exists_of_record? h
    simp only [Option.bind_eq_bind, Option.bind_eq_some_iff, Option.pure_def,
      Option.some.injEq] at h
    obtain ⟨_, -, _, -, _, -, _, hlimit, rfl⟩ := h
    have hdefault : (1024 : Nat) ≤ Json.wordLimit := by decide
    exact fits_of_fieldOr hdefault hlimit

end Wire

end TaskGrid
