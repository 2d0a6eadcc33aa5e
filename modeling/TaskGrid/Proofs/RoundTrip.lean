import TaskGrid.Proofs.Records

/-!
# Written forms and documents

A value is read back from its written form as it was, and a document from which a value is read is
as good as the written form of the value: it may leave out what has a default, write categories
without units and hold fields that nobody knows, but what it means is written and read again.

How an object is read is said once for all types: it is completed with the defaults, and of the
completed object only the fields of certain names count.  An array stands for the object that it
has the values of, in the order in which they are written.

* `Wire.ReadBack`: values and documents are read back.
* `Wire.Reads`: which fields of an object count, and which may be left out.
* `Wire.Record`, `Wire.Tagged`: records, and records of several kinds.
* `Wire.Record.read_values`, `Wire.Tagged.read_values`: a value is read from the array of the values
  of its fields.
* `Wire.Forms`: what is said of each type.
* `Wire.forms`: it holds.
-/

namespace TaskGrid

namespace Wire

variable {α β : Type}

/-! ## Reading back -/

/-- What is written is read back, for the values that fit; and only values that fit are read. -/
structure ReadBack (read : Json → Option α) (write : α → Json) (fits : α → Prop) : Prop where
  /-- A value is read back from its written form. -/
  value : ∀ a, fits a → read (write a) = some a
  /-- Whatever document a value was read from, it is read again from its written form. -/
  document : ∀ j a, read j = some a → fits a ∧ read (write a) = some a

theorem readBack [Wire α] [Faithful α] (known : Nat) :
    ReadBack (decode known) encode (Fits known : α → Prop) where
  value _ h := decode_encode h
  document _ _ h := ⟨fits_of_decode h, decode_encode (fits_of_decode h)⟩

/-! ## Reading objects -/

theorem lastNamed?_append (name : String) (l r : List (String × Json)) :
    Json.lastNamed? name (l ++ r) = (Json.lastNamed? name r).or (Json.lastNamed? name l) := by
  induction l with
  | nil => simp [Json.lastNamed?]
  | cons f l ih => rw [List.cons_append, Json.lastNamed?, Json.lastNamed?, ih, Option.or_assoc]

/-- What is read from an object depends only on the fields of `names`, once the object is completed.
The defaults stand in front, because of two fields of one name the later counts. -/
def Reads (names : List String) (defaults : List (String × Json)) (read : Json → Option α) :
    Prop :=
  ∀ fs gs, (∀ n ∈ names, Json.lastNamed? n (defaults ++ fs) = Json.lastNamed? n (defaults ++ gs)) →
    read (.obj fs) = read (.obj gs)

namespace Reads

variable {names : List String} {defaults : List (String × Json)} {name : String}
  {read : Json → Option α}

theorem const (r : Option α) : Reads names defaults fun _ => r := fun _ _ _ => rfl

/-- Reading goes on with what was read. -/
theorem bind {f : α → Json → Option β} (hr : Reads names defaults read)
    (hf : ∀ a, Reads names defaults (f a)) :
    Reads names defaults fun j => read j >>= fun a => f a j := by
  intro fs gs h
  show (read (.obj fs) >>= fun a => f a (.obj fs)) = read (.obj gs) >>= fun a => f a (.obj gs)
  rw [hr fs gs h]
  exact congrArg _ (funext fun a => hf a fs gs h)

/-- A field without default has to be there. -/
theorem required {f : α → Json → Option β} (hn : name ∈ names)
    (hd : Json.lastNamed? name defaults = none) (hf : ∀ a, Reads names defaults (f a)) :
    Reads names defaults fun j => j.required? name read >>= fun a => f a j := by
  refine bind (fun fs gs h => ?_) hf
  have hsame := h name hn
  rw [lastNamed?_append, lastNamed?_append, hd, Option.or_none, Option.or_none] at hsame
  show (Json.lastNamed? name fs).bind read = (Json.lastNamed? name gs).bind read
  rw [hsame]

/-- A field that has a default is read from the completed object. -/
theorem defaulted?_obj {v : Json} {default : α} (hd : Json.lastNamed? name defaults = some v)
    (hv : read v = some default) (fs : List (String × Json)) :
    Json.defaulted? (.obj fs) name default read =
      (Json.lastNamed? name (defaults ++ fs)).bind read := by
  rw [lastNamed?_append, hd, Json.defaulted?, Json.field?]
  cases Json.lastNamed? name fs with
  | none => exact hv.symm
  | some w => rfl

theorem defaulted {f : α → Json → Option β} {v : Json} {default : α} (hn : name ∈ names)
    (hd : Json.lastNamed? name defaults = some v) (hv : read v = some default)
    (hf : ∀ a, Reads names defaults (f a)) :
    Reads names defaults fun j => j.defaulted? name default read >>= fun a => f a j := by
  refine bind (fun fs gs h => ?_) hf
  show Json.defaulted? (.obj fs) name default read = Json.defaulted? (.obj gs) name default read
  rw [defaulted?_obj hd hv, defaulted?_obj hd hv, h name hn]

/-- Of a record the objects are read as they are. -/
theorem record {s : Json.Shape} (h : Reads names defaults read) :
    Reads names defaults (Json.record? s read) := h

theorem variant {shape : String → Option Json.Shape} (h : Reads names defaults read) :
    Reads names defaults (Json.variant? shape read) := h

/-- Fields of other names are skipped. -/
theorem skip (h : Reads names defaults read) (fs gs : List (String × Json)) {f : String × Json}
    (hf : f.1 ∉ names) : read (.obj (fs ++ f :: gs)) = read (.obj (fs ++ gs)) := by
  refine h _ _ fun n hn => ?_
  have hne : f.1 ≠ n := fun he => hf (he ▸ hn)
  simp only [lastNamed?_append, Json.lastNamed?, if_neg hne, Option.or_none]

/-- Filling in what is there already changes nothing. -/
theorem fill (h : Reads names defaults read) (fs : List (String × Json)) :
    read (.obj (defaults ++ fs)) = read (.obj fs) := by
  refine h _ _ fun n _ => ?_
  simp only [lastNamed?_append, Option.or_assoc, Option.or_self]

end Reads

/-- A type whose values are read from objects that may hold more fields than `names`, and fewer. -/
structure Lenient (read : Json → Option α) (write : α → Json) (fits : α → Prop)
    (names : List String) (defaults : List (String × Json)) : Prop
    extends ReadBack read write fits where
  /-- Fields of other names are skipped, wherever they stand. -/
  skips : ∀ fs gs f, f.1 ∉ names → read (.obj (fs ++ f :: gs)) = read (.obj (fs ++ gs))
  /-- Defaults are filled in where no later field has their names. -/
  fills : ∀ fs, read (.obj (defaults ++ fs)) = read (.obj fs)

/-- A type whose values are written with all fields. -/
structure Record (read : Json → Option α) (write : α → Json) (fits : α → Prop)
    (s : Json.Shape) (defaults : List (String × Json)) : Prop
    extends Lenient read write fits s.names defaults where
  /-- Every field is written, once and in order. -/
  full : ∀ a, ∃ fs, write a = .obj fs ∧ fs.map Prod.fst = s.names
  /-- The items of an array are the fields in order. -/
  ordered : ∀ items, read (.arr items) = (s.arrange? items).bind fun fs => read (.obj fs)

/-- A type whose values are of several kinds, which are written in the field `tag`. -/
structure Tagged (read : Json → Option α) (write : α → Json) (fits : α → Prop) (tag : String)
    (shape : String → Option Json.Shape) (names : List String) (defaults : List (String × Json)) :
    Prop extends Lenient read write fits names defaults where
  /-- The kind is written first, and then every field of the kind, once and in order. -/
  full : ∀ a, ∃ kind s fs, shape kind = some s ∧ write a = .obj ((tag, .str kind) :: fs) ∧
    tag :: fs.map Prod.fst = s.names
  /-- The items of an array that starts with a kind are the fields of the kind in order. -/
  ordered : ∀ kind items, read (.arr (.str kind :: items)) =
    (shape kind).bind fun s => (s.arrange? (.str kind :: items)).bind fun fs => read (.obj fs)
  /-- Other arrays are refused. -/
  untagged : ∀ items, (∀ kind, items.head? ≠ some (.str kind)) → read (.arr items) = none

theorem arrange?_values {s : Json.Shape} {fs : List (String × Json)}
    (h : fs.map Prod.fst = s.names) : s.arrange? (fs.map Prod.snd) = some fs := by
  have hlength : (fs.map Prod.snd).length = s.names.length := by
    rw [← h, List.length_map, List.length_map]
  rw [Json.Shape.arrange?, if_pos ⟨by omega, by omega⟩, ← List.zip_of_prod h rfl]

section Values

variable {read : Json → Option α} {write : α → Json} {fits : α → Prop}
  {defaults fs : List (String × Json)} {a : α}

/-- The names of the fields can be left out where all of them are written. -/
theorem Record.read_values {s : Json.Shape} (h : Record read write fits s defaults) (ha : fits a)
    (hw : write a = .obj fs) : read (.arr (fs.map Prod.snd)) = some a := by
  obtain ⟨_, hfs, hnames⟩ := h.full a
  cases hw.symm.trans hfs
  rw [h.ordered, arrange?_values hnames, Option.bind_some, ← hw]
  exact h.value a ha

theorem Tagged.read_values {tag : String} {shape : String → Option Json.Shape}
    {names : List String} (h : Tagged read write fits tag shape names defaults) (ha : fits a)
    (hw : write a = .obj fs) : read (.arr (fs.map Prod.snd)) = some a := by
  obtain ⟨kind, s, gs, hs, hfs, hnames⟩ := h.full a
  cases hw.symm.trans hfs
  have hall : ((tag, Json.str kind) :: gs).map Prod.fst = s.names := hnames
  have harrange : s.arrange? (.str kind :: gs.map Prod.snd) = some ((tag, .str kind) :: gs) :=
    arrange?_values hall
  rw [List.map_cons, h.ordered, hs, Option.bind_some, harrange, Option.bind_some, ← hw]
  exact h.value a ha

end Values

section Objects

variable {known : Nat} {names : List String} {defaults : List (String × Json)}

theorem lenient_of_reads [Wire α] [Faithful α]
    (h : Reads names defaults (decode known : Json → Option α)) :
    Lenient (decode known) encode (Fits known : α → Prop) names defaults where
  toReadBack := readBack known
  skips fs gs _ hf := h.skip fs gs hf
  fills := h.fill

theorem record_of_reads [Wire α] [Faithful α] {s : Json.Shape} {read : Json → Option α}
    (h : Reads s.names defaults (decode known : Json → Option α))
    (hread : (decode known : Json → Option α) = Json.record? s read)
    (hfull : ∀ a : α, ∃ fs, encode a = .obj fs ∧ fs.map Prod.fst = s.names) :
    Record (decode known) encode (Fits known : α → Prop) s defaults where
  toLenient := lenient_of_reads h
  full := hfull
  ordered items := by
    rw [hread]
    rfl

theorem tagged_of_reads [Wire α] [Faithful α] {tag : String} {shape : String → Option Json.Shape}
    {read : Json → Option α} (h : Reads names defaults (decode known : Json → Option α))
    (hread : (decode known : Json → Option α) = Json.variant? shape read)
    (hfull : ∀ a : α, ∃ kind s fs, shape kind = some s ∧
      encode a = .obj ((tag, .str kind) :: fs) ∧ tag :: fs.map Prod.fst = s.names) :
    Tagged (decode known) encode (Fits known : α → Prop) tag shape names defaults where
  toLenient := lenient_of_reads h
  full := hfull
  ordered kind items := by
    rw [hread]
    rfl
  untagged items hitems := by
    rw [hread, Json.variant?]
    · simp
    · rintro kind items' h
      cases h
      exact hitems kind rfl

/-! ### Kinds

The fields that count are those of all kinds together. -/

theorem reads_replica : Reads ["type", "host", "disk", "path", "id"] []
    (decode known : Json → Option Replica) :=
  .variant <| .required (by simp) rfl fun kind => by
    split
    · exact .required (by simp) rfl fun _ => .required (by simp) rfl fun _ => .const _
    · exact .required (by simp) rfl fun _ => .required (by simp) rfl fun _ => .const _
    · exact .required (by simp) rfl fun _ => .const _
    · exact .required (by simp) rfl fun _ => .required (by simp) rfl fun _ => .const _
    · exact .const _

theorem reads_remoteSource : Reads ["kind", "location", "resource", "name"] [("resource", .null)]
    (decode known : Json → Option RemoteSource) :=
  .variant <| .required (by simp) rfl fun kind => by
    split
    · exact .required (by simp) rfl fun _ => .defaulted (by simp) (by rfl) rfl fun _ => .const _
    · exact .required (by simp) rfl fun _ => .const _
    · exact .const _

theorem reads_producedValue (h : ∀ n ∈ ["name", "data_type", "location"], n ∈ names) :
    Reads names [] (decode known : Json → Option ProducedValue) :=
  .record <| .required (h _ (by simp)) rfl fun _ => .required (h _ (by simp)) rfl fun _ =>
  .required (h _ (by simp)) rfl fun _ => .const _

theorem reads_event : Reads
    ["event", "action", "worker", "implementation", "name", "data_type", "location", "reason"] []
    (decode known : Json → Option Event) :=
  .variant <| .required (by simp) rfl fun _ => .bind (.const _) fun kind =>
  .required (by simp) rfl fun a => by
    cases kind with
    | assigned =>
      exact .required (by simp) rfl fun _ => .required (by simp) rfl fun _ => .const _
    | valueProduced => exact .bind (reads_producedValue (by simp)) fun _ => .const _
    | failed => exact .required (by simp) rfl fun _ => .const _
    | _ => exact .const _

theorem reads_settings : Reads Settings.shape.names
    [("policy", .str "fifo"), ("local_node", .str "localhost"),
      ("withhold_master_unit", .bool true), ("history_limit", .int 1024)]
    Settings.ofRecord? := by
  unfold Settings.ofRecord? Settings.shape
  exact .record <| .defaulted (by simp) (by rfl) rfl fun _ => .defaulted (by simp) (by rfl) rfl
    fun _ => .defaulted (by simp) (by rfl) rfl fun _ => .defaulted (by simp) (by rfl) (by rfl)
    fun _ => .const _

end Objects

/-! ## Capacities without units -/

theorem ne_zero_of_mem_encode {a : Capacity} {fs : List (String × Json)} {f : String × Json}
    (h : encode a = .obj fs) (hf : f ∈ fs) : f.2 ≠ .int 0 := by
  cases h
  obtain ⟨p, hp, rfl⟩ := List.mem_map.mp hf
  have hunits : p.2 ≠ 0 := by simpa using (List.mem_filter.mp hp).2
  intro hzero
  have hcount : (p.2.count : Int) = 0 := Json.int.inj hzero
  exact hunits (Units.ext (Int.ofNat_eq_zero.mp hcount))

theorem decode_zero_cons (known : Nat) (c : Category) (fs : List (String × Json)) :
    (decode known (.obj ((c.name, .int 0) :: fs)) : Option Capacity) = decode known (.obj fs) := by
  have hset : Capacity.empty.set c 0 = .empty := Capacity.ext_get fun d => by
    rw [Capacity.get_set]
    split <;> simp
  have hzero : (decode known (.int 0) : Option Units) = some 0 := rfl
  show capacityFields known .empty ((c.name, .int 0) :: fs) = capacityFields known .empty fs
  rw [capacityFields, Category.ofName?_name, hzero]
  show capacityFields known (Capacity.empty.set c 0) fs = _
  rw [hset]

/-! ## Documents with settings -/

/-- A document that repeats no setting is read as every other value. -/
theorem decode_of_ofJson? {j : Json} {s : Settings} (h : Settings.ofJson? j = some s) :
    decode 0 j = some s := by
  unfold Settings.ofJson? at h
  split at h
  · exact (Option.ite_none_right_eq_some.mp h).2
  · exact h

theorem ofJson?_encode {s : Settings} (h : s.historyLimit ≤ Json.wordLimit) :
    Settings.ofJson? (encode s) = some s := by
  have hread : decode 0 (encode s) = some s := decode_encode h
  rw [← hread]
  rfl

theorem readBack_document :
    ReadBack Settings.ofJson? encode fun s => s.historyLimit ≤ Json.wordLimit where
  value _ h := ofJson?_encode h
  document _ s h := by
    have hfits : s.historyLimit ≤ Json.wordLimit := fits_of_decode (decode_of_ofJson? h)
    exact ⟨hfits, ofJson?_encode hfits⟩

/-! ## All types

The values that fit are given for each type; where all do, nothing in it is bounded. -/

/-- Application identifiers, capacities and settings. -/
structure PlainForms (known : Nat) : Prop where
  applicationId : ReadBack (decode known) encode (ApplicationId.Known known)
  capacity : ReadBack (decode known) encode fun _ : Capacity => True
  /-- Categories without units are not written. -/
  noZero : ∀ (a : Capacity) fs, encode a = .obj fs → ∀ f ∈ fs, f.2 ≠ .int 0
  /-- Nor are they kept where they are read. -/
  zero : ∀ (c : Category) fs,
    (decode known (.obj ((c.name, .int 0) :: fs)) : Option Capacity) = decode known (.obj fs)
  settings : Record (decode known) encode (fun s : Settings => s.historyLimit ≤ Json.wordLimit)
    { names := ["policy", "local_node", "withhold_master_unit", "history_limit"], omittable := 4 }
    [("policy", .str "fifo"), ("local_node", .str "localhost"),
      ("withhold_master_unit", .bool true), ("history_limit", .int 1024)]
  /-- Settings are also read from documents, which must not repeat one. -/
  document : ReadBack Settings.ofJson? encode fun s => s.historyLimit ≤ Json.wordLimit

/-- Replicas, and what is told about data. -/
structure DataForms (known : Nat) : Prop where
  replica : Tagged (decode known) encode (fun _ : Replica => True) "type" replicaShape
    ["type", "host", "disk", "path", "id"] []
  dataInfo : Record (decode known) encode
    (fun d : DataInfo => d.size ≤ Json.wordLimit ∧ d.copiesInFlight ≤ Json.wordLimit)
    { names := ["name", "aliases", "locations", "persistent_id", "binding_id", "in_memory", "size",
        "obsolete", "copies_in_flight"] }
    [("persistent_id", .null), ("binding_id", .null)]
  rescueOrder : Record (decode known) encode (fun _ : RescueOrder => True)
    { names := ["data", "host", "source"] } []

/-- Workers, and what is bound to them. -/
structure WorkerForms (known : Nat) : Prop where
  workerKey : Record (decode known) encode
    (fun k : WorkerKey => ∀ app ∈ k.scope, app.Known known)
    { names := ["name", "scope"] } [("scope", .null)]
  adaptor : Record (decode known) encode (fun _ : Adaptor => True)
    { names := ["adaptor", "properties"], omittable := 1 } [("properties", .obj [])]
  workerView : Record (decode known) encode
    (fun v : WorkerView => (∀ app ∈ v.key.scope, app.Known known) ∧ v.seq ≤ Json.wordLimit ∧
      v.queueDepth ≤ Json.wordLimit)
    { names := ["key", "seq", "free", "total", "withheld", "queue_depth", "removing"] } []
  assignment : Record (decode known) encode
    (fun a : Assignment => a.action ≤ Json.wordLimit ∧ (∀ app ∈ a.worker.scope, app.Known known) ∧
      a.implementation ≤ Json.wordLimit)
    { names := ["action", "worker", "implementation", "handler", "requirement"] } []

/-- Tasks, and what is told about actions. -/
structure ActionForms (known : Nat) : Prop where
  implementation : Record (decode known) encode (fun _ : Implementation => True)
    { names := ["requirement", "handler"] } []
  submission : Record (decode known) encode
    (fun s : Submission => IsPriority s.priority ∧ IsPriority s.groupPriority)
    { names := ["implementations", "dependencies", "outputs", "priority", "group_priority"],
      omittable := 4 }
    [("dependencies", .arr []), ("outputs", .arr []), ("priority", .int 0),
      ("group_priority", .int 0)]
  actionState : ReadBack (decode known) encode fun _ : ActionState => True
  failureReason : ReadBack (decode known) encode fun _ : FailureReason => True
  producedValue : Record (decode known) encode (fun _ : ProducedValue => True)
    { names := ["name", "data_type", "location"] } []
  event : Tagged (decode known) encode (EventFits known) "event" eventShape
    ["event", "action", "worker", "implementation", "name", "data_type", "location", "reason"] []

/-- What is asked of the agent, and what it tells. -/
structure RequestForms (known : Nat) : Prop where
  offer : Record (decode known) encode (fun _ : Offer => True)
    { names := ["name", "description", "adaptor"], omittable := 2 }
    [("description", .obj []), ("adaptor", .obj [("adaptor", .str ""), ("properties", .obj [])])]
  reduceRequest : Record (decode known) encode
    (fun r : ReduceRequest => ∀ app ∈ r.app, app.Known known)
    { names := ["name", "reduction", "app"], omittable := 1 } [("app", .null)]
  nodeRequest : Record (decode known) encode
    (fun r : NodeRequest => ∀ app ∈ r.app, app.Known known)
    { names := ["name", "app"], omittable := 1 } [("app", .null)]
  remoteSource : Tagged (decode known) encode (fun _ : RemoteSource => True) "kind" sourceShape
    ["kind", "location", "resource", "name"] [("resource", .null)]
  remoteData : Record (decode known) encode (fun _ : RemoteData => True)
    { names := ["renaming", "sources"] } []
  taskRequest : Record (decode known) encode
    (fun r : TaskRequest =>
      IsPriority r.submission.priority ∧ IsPriority r.submission.groupPriority)
    { names := ["submission", "resources", "remote_data"], omittable := 2 }
    [("resources", .arr []), ("remote_data", .arr [])]
  agentStatus : Record (decode known) encode
    (fun s : AgentStatus => s.workers ≤ Json.wordLimit ∧ s.liveActions ≤ Json.wordLimit ∧
      s.readyActions ≤ Json.wordLimit ∧ s.sessions ≤ Json.wordLimit)
    { names := ["workers", "live_actions", "ready_actions", "sessions", "policy"] } []

/-- What is written and read, when `known` application identifiers were handed out. -/
structure Forms (known : Nat) : Prop extends PlainForms known, DataForms known, WorkerForms known,
  ActionForms known, RequestForms known

theorem plainForms (known : Nat) : PlainForms known where
  applicationId := readBack known
  capacity := readBack known
  noZero _ _ h _ hf := ne_zero_of_mem_encode h hf
  zero := decode_zero_cons known
  settings :=
    record_of_reads reads_settings (rfl : Settings.ofRecord? = Json.record? Settings.shape _)
      fun _ => ⟨_, rfl, rfl⟩
  document := readBack_document

theorem dataForms (known : Nat) : DataForms known where
  replica := tagged_of_reads reads_replica rfl fun r => by
    cases r <;> exact ⟨_, _, _, rfl, rfl, rfl⟩
  dataInfo :=
    record_of_reads
      (.record <| .required (by simp) rfl fun _ => .required (by simp) rfl fun _ =>
        .required (by simp) rfl fun _ => .defaulted (by simp) (by rfl) rfl fun _ =>
        .defaulted (by simp) (by rfl) rfl fun _ => .required (by simp) rfl fun _ =>
        .required (by simp) rfl fun _ => .required (by simp) rfl fun _ =>
        .required (by simp) rfl fun _ => .const _)
      rfl fun _ => ⟨_, rfl, rfl⟩
  rescueOrder :=
    record_of_reads
      (.record <| .required (by simp) rfl fun _ => .required (by simp) rfl fun _ =>
        .required (by simp) rfl fun _ => .const _)
      rfl fun _ => ⟨_, rfl, rfl⟩

theorem workerForms (known : Nat) : WorkerForms known where
  workerKey :=
    record_of_reads
      (.record <| .required (by simp) rfl fun _ => .defaulted (by simp) (by rfl) rfl fun _ =>
        .const _)
      rfl fun _ => ⟨_, rfl, rfl⟩
  adaptor :=
    record_of_reads
      (.record <| .required (by simp) rfl fun _ => .defaulted (by simp) (by rfl) rfl fun _ =>
        .const _)
      rfl fun _ => ⟨_, rfl, rfl⟩
  workerView :=
    record_of_reads
      (.record <| .required (by simp) rfl fun _ => .required (by simp) rfl fun _ =>
        .required (by simp) rfl fun _ => .required (by simp) rfl fun _ =>
        .required (by simp) rfl fun _ => .required (by simp) rfl fun _ =>
        .required (by simp) rfl fun _ => .const _)
      rfl fun _ => ⟨_, rfl, rfl⟩
  assignment :=
    record_of_reads
      (.record <| .required (by simp) rfl fun _ => .required (by simp) rfl fun _ =>
        .required (by simp) rfl fun _ => .required (by simp) rfl fun _ =>
        .required (by simp) rfl fun _ => .const _)
      rfl fun _ => ⟨_, rfl, rfl⟩

theorem actionForms (known : Nat) : ActionForms known where
  implementation :=
    record_of_reads
      (.record <| .required (by simp) rfl fun _ => .required (by simp) rfl fun _ => .const _)
      rfl fun _ => ⟨_, rfl, rfl⟩
  submission :=
    record_of_reads
      (.record <| .required (by simp) rfl fun _ => .defaulted (by simp) (by rfl) rfl fun _ =>
        .defaulted (by simp) (by rfl) rfl fun _ => .defaulted (by simp) (by rfl) rfl fun _ =>
        .defaulted (by simp) (by rfl) rfl fun _ => .const _)
      rfl fun _ => ⟨_, rfl, rfl⟩
  actionState := readBack known
  failureReason := readBack known
  producedValue := record_of_reads (reads_producedValue (by simp)) rfl fun _ => ⟨_, rfl, rfl⟩
  event := tagged_of_reads reads_event rfl fun e => by
    cases e <;> exact ⟨_, _, _, rfl, rfl, rfl⟩

theorem requestForms (known : Nat) : RequestForms known where
  offer :=
    record_of_reads
      (.record <| .required (by simp) rfl fun _ => .defaulted (by simp) (by rfl) rfl fun _ =>
        .defaulted (by simp) (by rfl) rfl fun _ => .const _)
      rfl fun _ => ⟨_, rfl, rfl⟩
  reduceRequest :=
    record_of_reads
      (.record <| .required (by simp) rfl fun _ => .required (by simp) rfl fun _ =>
        .defaulted (by simp) (by rfl) rfl fun _ => .const _)
      rfl fun _ => ⟨_, rfl, rfl⟩
  nodeRequest :=
    record_of_reads
      (.record <| .required (by simp) rfl fun _ => .defaulted (by simp) (by rfl) rfl fun _ =>
        .const _)
      rfl fun _ => ⟨_, rfl, rfl⟩
  remoteSource := tagged_of_reads reads_remoteSource rfl fun r => by
    cases r <;> exact ⟨_, _, _, rfl, rfl, rfl⟩
  remoteData :=
    record_of_reads
      (.record <| .required (by simp) rfl fun _ => .required (by simp) rfl fun _ => .const _)
      rfl fun _ => ⟨_, rfl, rfl⟩
  taskRequest :=
    record_of_reads
      (.record <| .required (by simp) rfl fun _ => .defaulted (by simp) (by rfl) rfl fun _ =>
        .defaulted (by simp) (by rfl) rfl fun _ => .const _)
      rfl fun _ => ⟨_, rfl, rfl⟩
  agentStatus :=
    record_of_reads
      (.record <| .required (by simp) rfl fun _ => .required (by simp) rfl fun _ =>
        .required (by simp) rfl fun _ => .required (by simp) rfl fun _ =>
        .required (by simp) rfl fun _ => .const _)
      rfl fun _ => ⟨_, rfl, rfl⟩

/-- What is written is read back, for every type. -/
theorem forms (known : Nat) : Forms known where
  toPlainForms := plainForms known
  toDataForms := dataForms known
  toWorkerForms := workerForms known
  toActionForms := actionForms known
  toRequestForms := requestForms known

/-- An offer that leaves out its adaptor, counts a category without units and has a field that
nobody knows is written in full. -/
example :
    (decode 0 (.obj
      [("description", .obj [("gpu", .int 2), ("cpu", .int 0)]), ("zone", .null),
        ("name", .str "n")]) : Option Offer).map encode =
      some (.obj
        [("name", .str "n"), ("description", .obj [("gpu", .int 2)]),
          ("adaptor", .obj [("adaptor", .str ""), ("properties", .obj [])])]) := by
  rfl

/-- An array that ends before the adaptor is read as such an offer. -/
example :
    (decode 0 (.arr [.str "n", .obj [("gpu", .int 2)]]) : Option Offer) =
      decode 0 (.obj [("description", .obj [("gpu", .int 2)]), ("name", .str "n")]) := by
  rfl

end Wire

end TaskGrid
