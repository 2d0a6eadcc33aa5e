import TaskGrid.Proofs.Identifiers
import TaskGrid.Wire.Capacity

/-!
# Written forms are faithful

A value is read back from its written form as it was.  The values of a type need not all have a
written form: numbers are bounded, and an identifier that was not handed out yet cannot be read.  So
each type says which of its values fit, and two things are shown of it: a value that fits is read
back, and only values that fit are ever read.  Together they say that whatever is read, from however
lax a document, is read again from what is written in its place.

* `Wire.Faithful`: the two properties.
* `Wire.required?_bind`, `Wire.defaulted?_bind`: a field of a written record is read back.
* `Wire.fits_of_field`, `Wire.fits_of_fieldOr`: what is read from a field fits.
* `Wire.exists_of_record?`, `Wire.exists_of_variant?`: whatever is read as a record is read from an
  object.
-/

namespace TaskGrid

namespace Wire

/-- A type whose values are read back as they were written. -/
class Faithful (α : Type) [Wire α] where
  /-- The values that can be read when `known` application identifiers were handed out. -/
  Fits : (known : Nat) → α → Prop
  /-- A value that fits is read back from its written form. -/
  decode_encode {known : Nat} {a : α} (h : Fits known a) : decode known (encode a) = some a
  /-- Only values that fit are read. -/
  fits_of_decode {known : Nat} {j : Json} {a : α} (h : decode known j = some a) : Fits known a

export Faithful (Fits decode_encode fits_of_decode)

variable {α : Type} {known : Nat} {j : Json} {name : String} {a : α}

/-! ## Fields -/

section Fields

variable {β : Type} {fields : List (String × Json)} {default : α} {f : α → Option β} {r : Option β}

/-- A field of a record is read, if it is the last of its name, and reading goes on with its
value. -/
theorem required?_bind {read : Json → Option α} {v : Json}
    (hf : Json.lastNamed? name fields = some v) (hv : read v = some a) (hr : f a = r) :
    (Json.required? (.obj fields) name read >>= f) = r := by
  have hread : Json.required? (.obj fields) name read = some a := by
    rw [Json.required?, Json.field?, hf, Option.bind_some, hv]
  rw [hread, ← hr]
  rfl

/-- So is a field that has a default. -/
theorem defaulted?_bind {read : Json → Option α} {v : Json}
    (hf : Json.lastNamed? name fields = some v) (hv : read v = some a) (hr : f a = r) :
    (Json.defaulted? (.obj fields) name default read >>= f) = r := by
  have hread : Json.defaulted? (.obj fields) name default read = some a := by
    rw [Json.defaulted?, Json.field?, hf]
    exact hv
  rw [hread, ← hr]
  rfl

variable [Wire α] [Faithful α]

theorem field_bind (hf : Json.lastNamed? name fields = some (encode a)) (h : Fits known a)
    (hr : f a = r) : (field known (.obj fields) name >>= f) = r :=
  required?_bind hf (decode_encode h) hr

theorem fieldOr_bind (hf : Json.lastNamed? name fields = some (encode a)) (h : Fits known a)
    (hr : f a = r) : (fieldOr known (.obj fields) name default >>= f) = r :=
  defaulted?_bind hf (decode_encode h) hr

/-- What is read from a field fits. -/
theorem fits_of_field (h : field known j name = some a) : Fits known a := by
  obtain ⟨v, -, hv⟩ := Option.bind_eq_some_iff.mp h
  exact fits_of_decode hv

/-- What is read from a field, or else its default, fits if the default does. -/
theorem fits_of_fieldOr (hd : Fits known default) (h : fieldOr known j name default = some a) :
    Fits known a := by
  unfold fieldOr Json.defaulted? at h
  split at h
  · exact fits_of_decode h
  · cases h
    exact hd

end Fields

/-! ## Records -/

section Records

variable {read : Json → Option α} {fields : List (String × Json)}

theorem record?_obj {s : Json.Shape} (h : read (.obj fields) = some a) :
    Json.record? s read (.obj fields) = some a := h

theorem variant?_obj {shape : String → Option Json.Shape} (h : read (.obj fields) = some a) :
    Json.variant? shape read (.obj fields) = some a := h

theorem exists_of_record? {s : Json.Shape} (h : Json.record? s read j = some a) :
    ∃ fields, read (.obj fields) = some a := by
  cases j with
  | obj fields => exact ⟨fields, h⟩
  | arr items =>
    obtain ⟨fields, -, hread⟩ := Option.bind_eq_some_iff.mp h
    exact ⟨fields, hread⟩
  | _ => cases h

theorem exists_of_variant? {shape : String → Option Json.Shape}
    (h : Json.variant? shape read j = some a) : ∃ fields, read (.obj fields) = some a := by
  unfold Json.variant? at h
  split at h
  · exact ⟨_, h⟩
  · obtain ⟨s, -, hread⟩ := Option.bind_eq_some_iff.mp h
    exact exists_of_record? hread
  · cases h

end Records

/-! ## Plain values -/

instance : Faithful String where
  Fits _ _ := True
  decode_encode _ := rfl
  fits_of_decode _ := trivial

instance : Faithful Bool where
  Fits _ _ := True
  decode_encode _ := rfl
  fits_of_decode _ := trivial

/-- A number is read if it is within the bound. -/
theorem natural?_eq_some_iff {bound n : Nat} :
    j.natural? bound = some n ↔ j = Json.ofNat n ∧ n ≤ bound := by
  constructor
  · intro h
    unfold Json.natural? at h
    split at h
    · split at h
      · next hle =>
        cases h
        exact ⟨rfl, hle⟩
      · cases h
    · cases h
  · rintro ⟨rfl, hle⟩
    exact if_pos hle

/-- Numbers have 64 bits. -/
instance : Faithful Nat where
  Fits _ n := n ≤ Json.wordLimit
  decode_encode h := natural?_eq_some_iff.mpr ⟨rfl, h⟩
  fits_of_decode h := (natural?_eq_some_iff.mp h).2

/-- An identifier that was handed out here has to be one of those that were. -/
instance : Faithful ApplicationId where
  Fits known a := a.Known known
  decode_encode h := ApplicationId.read?_text h
  fits_of_decode {_ j _} h := by
    obtain ⟨s, -, hs⟩ := Option.bind_eq_some_iff.mp h
    exact ApplicationId.known_of_read? hs

/-! ## Lists and values that may be absent -/

theorem list?_ofList {read : Json → Option α} {write : α → Json} {l : List α}
    (h : ∀ a ∈ l, read (write a) = some a) : Json.list? read (Json.ofList write l) = some l := by
  show (l.map write).mapM read = some l
  induction l with
  | nil => rfl
  | cons a l ih =>
    obtain ⟨ha, hl⟩ := List.forall_mem_cons.mp h
    rw [List.map_cons, List.mapM_cons, ha, ih hl]
    rfl

/-- Every item of a list that is read was read by itself. -/
theorem exists_of_mem_list? {read : Json → Option α} {l : List α} (h : Json.list? read j = some l)
    (ha : a ∈ l) : ∃ v, read v = some a := by
  cases j with
  | arr items =>
    replace h : items.mapM read = some l := h
    induction items generalizing l with
    | nil =>
      cases h
      cases ha
    | cons v items ih =>
      rw [List.mapM_cons] at h
      obtain ⟨b, hb, h⟩ := Option.bind_eq_some_iff.mp h
      obtain ⟨r, hr, h⟩ := Option.bind_eq_some_iff.mp h
      cases h
      rcases List.mem_cons.mp ha with rfl | ha
      · exact ⟨v, hb⟩
      · exact ih ha hr
  | _ => cases h

/-- A list fits if its items do. -/
instance [Wire α] [Faithful α] : Faithful (List α) where
  Fits known l := ∀ a ∈ l, Fits known a
  decode_encode h := list?_ofList fun a ha => decode_encode (h a ha)
  fits_of_decode h a ha := by
    obtain ⟨v, hv⟩ := exists_of_mem_list? h ha
    exact fits_of_decode hv

/-- A type whose values are not written as null, so that null can stand for an absent value. -/
class Present (α : Type) [Wire α] : Prop where
  /-- No value is written as null. -/
  encode_ne_null (a : α) : encode a ≠ .null

instance : Present String := ⟨fun _ h => nomatch h⟩

instance : Present ApplicationId := ⟨fun _ h => nomatch h⟩

theorem nullable?_of_ne {read : Json → Option α} (h : j ≠ .null) :
    j.nullable? read = (read j).map some := by
  cases j with
  | null => exact absurd rfl h
  | _ => rfl

/-- A value that may be absent fits if it is or does. -/
instance [Wire α] [Faithful α] [Present α] : Faithful (Option α) where
  Fits known o := ∀ a ∈ o, Fits known a
  decode_encode {known o} h := by
    cases o with
    | none => rfl
    | some a =>
      have hread : decode known (encode a) = some a := decode_encode (h a rfl)
      show (encode a).nullable? (decode known) = some (some a)
      rw [nullable?_of_ne (Present.encode_ne_null a), hread, Option.map_some]
  fits_of_decode {known j o} h := by
    rintro a rfl
    have hne : j ≠ .null := by
      rintro rfl
      cases h
    have hread : (decode known j : Option α).map some = some (some a) :=
      (nullable?_of_ne hne).symm.trans h
    obtain ⟨b, hb, hab⟩ := Option.map_eq_some_iff.mp hread
    cases hab
    exact fits_of_decode hb

/-- What is read from a field that may be absent fits. -/
theorem fits_of_fieldOption [Wire α] [Faithful α] [Present α] {o : Option α}
    (h : fieldOption known j name = some o) : Fits known o :=
  fits_of_fieldOr (fun _ ha => by cases ha) h

/-! ## Capacities -/

/-- Counts of units are bounded by their type. -/
instance : Faithful Units where
  Fits _ _ := True
  decode_encode {known u} _ := by
    have hread : (Json.ofNat u.count).natural? Units.limit = some u.count :=
      natural?_eq_some_iff.mpr ⟨rfl, u.bounded⟩
    show ((Json.ofNat u.count).natural? Units.limit).bind Units.ofNat? = some u
    rw [hread, Option.bind_some, Units.ofNat?, dif_pos u.bounded]
  fits_of_decode _ := trivial

instance : Faithful Category where
  Fits _ _ := True
  decode_encode {_ c} _ := Category.ofName?_name c
  fits_of_decode _ := trivial

/-- Reading the written amounts replaces one category after the other. -/
theorem capacityFields_map (known : Nat) (x : Capacity) (l : List (Category × Units)) :
    capacityFields known x (l.map fun p => (p.1.name, encode p.2)) =
      some (l.foldl (fun x p => x.set p.1 p.2) x) := by
  induction l generalizing x with
  | nil => rfl
  | cons p l ih =>
    have hunits : decode known (encode p.2) = some p.2 := decode_encode trivial
    rw [List.map_cons, capacityFields, Category.ofName?_name, hunits]
    exact ih _

/-- Where every category with units is listed, nothing else has to be. -/
theorem get_foldl_pairs (a x : Capacity) (l : List Category) (c : Category) :
    (((l.map fun c => (c, a.get c)).filter fun p => p.2 ≠ 0).foldl
      (fun x p => x.set p.1 p.2) x).get c =
        if c ∈ l ∧ a.get c ≠ 0 then a.get c else x.get c := by
  induction l generalizing x with
  | nil => simp
  | cons d l ih =>
    rw [List.map_cons, List.filter_cons]
    by_cases hd : a.get d = 0
    · rw [if_neg (by simp [hd]), ih]
      by_cases hc : c = d
      · simp [hc, hd]
      · simp [hc]
    · rw [if_pos (by simp [hd]), List.foldl_cons, ih, Capacity.get_set]
      by_cases hc : c = d
      · subst hc
        simp [hd]
      · simp [hc]

/-- Categories without units are not written, and are read as such. -/
instance : Faithful Capacity where
  Fits _ _ := True
  decode_encode {known a} _ := by
    refine (capacityFields_map known .empty a.pairs).trans (congrArg some ?_)
    refine Capacity.ext_get fun c => ?_
    rw [Capacity.pairs, get_foldl_pairs]
    by_cases hc : a.get c = 0
    · simp [hc]
    · simp [hc, Category.mem_all]
  fits_of_decode _ := trivial

end Wire

end TaskGrid
