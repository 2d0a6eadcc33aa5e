import Mathlib.Algebra.GroupWithZero.Nat
import Mathlib.Tactic.Tauto
import TaskGrid.Application.Id

/-!
# Identifiers and their texts

An identifier from elsewhere is written as hexadecimal digits with hyphens, one that was handed out
here as a label with its number.  Either is read back from its text, and neither text is taken for
one of the other kind: a label starts with a letter that is no hexadecimal digit further on.

* `Uuid.readHex_hexDigits`: the digits of a number denote its last digits.
* `Uuid.unhyphenate?_hyphenate`: the hyphens are taken out where they were put in.
* `ApplicationId.read?_text`: an identifier is read back from its text.
-/

namespace TaskGrid

namespace Uuid

/-! ## Digits -/

theorem hexValue?_hexDigit : ∀ d < 16, hexValue? (hexDigit d) = some d := by decide

theorem hexDigit_ne (d : Nat) {c : Char} (h : c = 'p' ∨ c = '-') : hexDigit d ≠ c := by
  rcases h with rfl | rfl <;> exact Nat.digitChar_ne _ (by decide)

theorem length_hexDigits (k n : Nat) : (hexDigits k n).length = k := by
  induction k generalizing n with
  | zero => rfl
  | succ k ih => rw [hexDigits, List.length_append, ih]; rfl

theorem not_mem_hexDigits {c : Char} (h : c = 'p' ∨ c = '-') (k n : Nat) : c ∉ hexDigits k n := by
  induction k generalizing n with
  | zero => exact List.not_mem_nil
  | succ k ih =>
    rw [hexDigits, List.mem_append, List.mem_singleton, not_or]
    exact ⟨ih _, fun he => hexDigit_ne _ h he.symm⟩

theorem readHex_append (n : Nat) (l : List Char) (c : Char) :
    readHex n (l ++ [c]) =
      (readHex n l).bind fun m => (hexValue? c).map fun d => 16 * m + d := by
  induction l generalizing n with
  | nil => cases h : hexValue? c <;> simp [readHex, h]
  | cons b l ih => cases h : hexValue? b <;> simp [readHex, h, ih]

/-- The last `k` digits of a number denote its remainder. -/
theorem readHex_hexDigits (k n : Nat) : readHex 0 (hexDigits k n) = some (n % 16 ^ k) := by
  induction k generalizing n with
  | zero => simp [hexDigits, readHex, Nat.mod_one]
  | succ k ih =>
    rw [hexDigits, readHex_append, ih, Option.bind_some,
      hexValue?_hexDigit _ (Nat.mod_lt _ (by decide)), Option.map_some, Nat.pow_succ,
      Nat.mul_comm (16 ^ k) 16, Nat.mod_mul, Nat.add_comm]

/-! ## Hyphens -/

/-- A text of 32 characters in the groups of the hyphenated form. -/
theorem exists_groups {d : List Char} (h : d.length = 32) :
    ∃ a b c e f, d = a ++ (b ++ (c ++ (e ++ f))) ∧
      a.length = 8 ∧ b.length = 4 ∧ c.length = 4 ∧ e.length = 4 ∧ f.length = 12 := by
  refine ⟨d.take 8, (d.drop 8).take 4, (d.drop 12).take 4, (d.drop 16).take 4, d.drop 20, ?_, ?_⟩
  · have hdrop (i j : Nat) : (d.drop i).drop j = d.drop (i + j) := List.drop_drop
    rw [← hdrop 16 4, List.take_append_drop, ← hdrop 12 4, List.take_append_drop, ← hdrop 8 4,
      List.take_append_drop, List.take_append_drop]
  · simp [h]

/-- Hyphens stand between the groups. -/
theorem hyphenate_groups {a b c e f : List Char} (ha : a.length = 8) (hb : b.length = 4)
    (hc : c.length = 4) (he : e.length = 4) :
    hyphenate (a ++ (b ++ (c ++ (e ++ f)))) =
      a ++ '-' :: (b ++ '-' :: (c ++ '-' :: (e ++ '-' :: f))) := by
  simp [hyphenate, List.drop_append, List.drop_of_length_le, ha, hb, hc, he]

theorem length_hyphenate {d : List Char} (h : d.length = 32) : (hyphenate d).length = 36 := by
  obtain ⟨a, b, c, e, f, rfl, ha, hb, hc, he, hf⟩ := exists_groups h
  simp [hyphenate_groups ha hb hc he, ha, hb, hc, he, hf]

/-- The hyphens of the hyphenated form are taken out again. -/
theorem unhyphenate?_hyphenate {d : List Char} (h : d.length = 32) :
    unhyphenate? (hyphenate d) = some d := by
  obtain ⟨a, b, c, e, f, rfl, ha, hb, hc, he, hf⟩ := exists_groups h
  have hout : (let s := hyphenate (a ++ (b ++ (c ++ (e ++ f))))
      s.take 8 ++ (s.drop 9).take 4 ++ (s.drop 14).take 4 ++ (s.drop 19).take 4 ++ s.drop 24) =
        a ++ (b ++ (c ++ (e ++ f))) := by
    simp [hyphenate_groups ha hb hc he, List.drop_append, List.drop_of_length_le, ha, hb, hc, he]
  rw [unhyphenate?, hout, if_pos rfl]

theorem mem_hyphenate {d : List Char} {x : Char} (hd : d.length = 32) (h : x ∈ hyphenate d) :
    x = '-' ∨ x ∈ d := by
  obtain ⟨a, b, c, e, f, rfl, ha, hb, hc, he, hf⟩ := exists_groups hd
  rw [hyphenate_groups ha hb hc he] at h
  simp only [List.mem_append, List.mem_cons] at h ⊢
  tauto

/-! ## The text of an identifier -/

theorem toList_text (u : Uuid) : u.text.toList = hyphenate (hexDigits 32 u.value) :=
  String.toList_ofList

/-- The digits of an identifier denote it. -/
theorem ofDigits?_hexDigits (u : Uuid) : ofDigits? (hexDigits 32 u.value) = some u := by
  have hpow : (16 : Nat) ^ 32 = Nat.pow 2 128 := by decide
  rw [ofDigits?, if_pos (length_hexDigits 32 u.value), readHex_hexDigits, hpow,
    Nat.mod_eq_of_lt u.bounded, Option.bind_some, dif_pos u.bounded]

/-- An identifier is read back from its text. -/
theorem read?_text (u : Uuid) : read? u.text = some u := by
  have hdigits := length_hexDigits 32 u.value
  rw [read?, toList_text, length_hyphenate hdigits, if_neg (by decide), if_pos rfl,
    unhyphenate?_hyphenate hdigits, Option.bind_some, ofDigits?_hexDigits]

end Uuid

namespace ApplicationId

/-- The text of an identifier from elsewhere is no label. -/
theorem ordinal?_uuid (u : Uuid) : ordinal? u.text = none := by
  have hno : 'p' ∉ u.text.toList := by
    rw [Uuid.toList_text]
    intro hp
    rcases Uuid.mem_hyphenate (Uuid.length_hexDigits 32 u.value) hp with hp | hp
    · exact absurd hp (by decide)
    · exact Uuid.not_mem_hexDigits (.inl rfl) _ _ hp
  unfold ordinal?
  split
  · next heq => exact absurd (heq ▸ by simp) hno
  · rfl

/-- The number of a label is read from it. -/
theorem ordinal?_label (n : Nat) : ordinal? ("app" ++ toString n) = some n := by
  have hdigits : (toString n).toList = Nat.toDigits 10 n := Nat.toList_repr
  have hnumber : (Nat.toDigits 10 n).foldl (fun n c => 10 * n + (c.toNat - '0'.toNat)) 0 = n :=
    Nat.ofDigitChars_toDigits (by decide) (by decide)
  have hlabel : ("app" ++ toString n).toList = 'a' :: 'p' :: 'p' :: Nat.toDigits 10 n := by
    rw [String.toList_append, hdigits]
    rfl
  rw [ordinal?, hlabel]
  simp only [hnumber, hdigits, if_true]

/-- The identifiers that can be read when `known` of them were handed out. -/
def Known (known : Nat) : ApplicationId → Prop
  | issued n => 1 ≤ n ∧ n ≤ known
  | literal _ => True

/-- An identifier that can be known is read back from its text. -/
theorem read?_text {known : Nat} {a : ApplicationId} (h : a.Known known) :
    read? known a.text = some a := by
  cases a with
  | issued n =>
    rw [read?, text, ordinal?_label]
    exact if_pos h
  | literal u => rw [read?, text, ordinal?_uuid, Uuid.read?_text, Option.map_some]

/-- Only identifiers that can be known are read. -/
theorem known_of_read? {known : Nat} {s : String} {a : ApplicationId} (h : read? known s = some a) :
    a.Known known := by
  unfold read? at h
  split at h
  · split at h
    · next hn =>
      cases h
      exact hn
    · cases h
  · obtain ⟨u, -, rfl⟩ := Option.map_eq_some_iff.mp h
    trivial

end ApplicationId

end TaskGrid
