import Mathlib.Algebra.Group.Int.Defs
import Mathlib.Algebra.Group.Nat.Defs
import SyntaxLint.Json.Printer
import SyntaxLint.Json.Reader

/-!
# Proofs — JSON — literals

The literals that are written are read again.  A number ends where its digits do, so it is read
whatever follows it, unless that would go on with the number; a string ends at its closing quote,
and every character of it is read from what it is written as.

* `Json.Number.Exact`, `Json.readNumeral_writeNumber`: integers of 64 bits.
* `Json.readString_writeString`: strings.
-/

namespace SyntaxLint.Json

/-! ### Numbers -/

/-- The value of a decimal digit. -/
def digitValue (c : Char) : Nat := c.toNat - '0'.toNat

/-- A text that does not go on with a number that ends before it. -/
def EndsNumber (after : List Char) : Prop :=
  ∀ c ∈ after.head?, c.isDigit = false ∧ c ≠ '.' ∧ c ≠ 'e' ∧ c ≠ 'E'

variable {after : List Char}

theorem endsNumber_cons {c : Char} (h : c.isDigit = false ∧ c ≠ '.' ∧ c ≠ 'e' ∧ c ≠ 'E') :
    EndsNumber (c :: after) := by
  simpa [EndsNumber] using h

theorem readDigits_append {ds : List Char} (digits : ∀ c ∈ ds, c.isDigit = true)
    (ends : EndsNumber after) : readDigits (ds ++ after) = (ds.map digitValue, after) := by
  have stop : after.takeWhile Char.isDigit = [] ∧ after.dropWhile Char.isDigit = after := by
    cases after with
    | nil => exact ⟨rfl, rfl⟩
    | cons c cs => simp [(ends c rfl).1]
  rw [readDigits, List.takeWhile_append_of_pos digits, List.dropWhile_append_of_pos digits, stop.1,
    stop.2, List.append_nil]
  rfl

theorem isDigit_of_mem_toDigits {n : Nat} {c : Char} (h : c ∈ Nat.toDigits 10 n) :
    c.isDigit = true :=
  Nat.isDigit_of_mem_toDigits (by decide) (by decide) h

theorem ofDigits_toDigits (n : Nat) : ofDigits ((Nat.toDigits 10 n).map digitValue) = n := by
  have h := Nat.ofDigitChars_ten_toDigits (n := n)
  rw [Nat.ofDigitChars_eq_foldl] at h
  rw [ofDigits, List.foldl_map]
  exact h

/-- Only zero is written with a zero in front. -/
theorem eq_zero_of_head?_toDigits {n : Nat} (h : (Nat.toDigits 10 n).head? = some '0') :
    n = 0 := by
  induction n using Nat.strongRecOn with
  | ind n ih =>
    rw [Nat.toDigits_eq_if (by decide)] at h
    split at h
    case isTrue => simpa [Nat.digitChar_eq_zero] using h
    case isFalse big =>
      obtain ⟨c, cs, leading⟩ :=
        List.exists_cons_of_ne_nil (Nat.toDigits_ne_nil (n := n / 10) (b := 10))
      rw [leading] at h
      have := ih (n / 10) (by omega) (by rw [leading]; exact h)
      omega

/-- **The digits of a number** are read, whatever follows them. -/
theorem readWhole_toDigits (n : Nat) (ends : EndsNumber after) :
    readWhole (Nat.toDigits 10 n ++ after) =
      some ((Nat.toDigits 10 n).map digitValue, after) := by
  rw [readWhole, readDigits_append (fun c => isDigit_of_mem_toDigits) ends]
  cases written : Nat.toDigits 10 n with
  | nil => exact absurd written Nat.toDigits_ne_nil
  | cons c cs =>
    cases cs with
    | nil => simp
    | cons c' cs =>
      have leading : digitValue c ≠ 0 := by
        intro zero
        have digit := Char.isDigit_iff_toNat.1
          (isDigit_of_mem_toDigits (n := n) (c := c) (by simp [written]))
        have same : c = '0' := Char.toNat_inj.1 (by rw [digitValue] at zero; omega)
        have none := eq_zero_of_head?_toDigits (n := n) (by rw [written, same]; rfl)
        subst none
        simp [Nat.toDigits_zero] at written
      simp [leading]

theorem readFraction_of_ends (ends : EndsNumber after) : readFraction after = some ([], after) := by
  unfold readFraction
  split
  case h_1 cs => exact absurd rfl (ends '.' rfl).2.1
  case h_2 => rfl

theorem readExponent_of_ends (ends : EndsNumber after) :
    readExponent after = some (none, after) := by
  cases after with
  | nil => rfl
  | cons c cs =>
    obtain ⟨-, -, small, capital⟩ := ends c rfl
    simp [readExponent, small, capital]

/-- A whole number as it is written, read again with its sign. -/
theorem readNumeral_toDigits (n : Nat) (ends : EndsNumber after) :
    readNumeral (Nat.toDigits 10 n ++ after) =
        some (⟨false, (Nat.toDigits 10 n).map digitValue, [], none⟩, after) ∧
    readNumeral ('-' :: (Nat.toDigits 10 n ++ after)) =
        some (⟨true, (Nat.toDigits 10 n).map digitValue, [], none⟩, after) := by
  have whole := readWhole_toDigits n ends
  constructor
  case left =>
    cases written : Nat.toDigits 10 n with
    | nil => exact absurd written Nat.toDigits_ne_nil
    | cons c cs =>
      have digit : c.isDigit = true := isDigit_of_mem_toDigits (n := n) (by simp [written])
      have unsigned : c ≠ '-' := by
        rintro rfl
        exact absurd digit (by decide)
      rw [written] at whole
      simp only [List.cons_append] at whole ⊢
      simp [readNumeral, unsigned, whole, readFraction_of_ends ends, readExponent_of_ends ends]
  case right =>
    simp [readNumeral, whole, readFraction_of_ends ends, readExponent_of_ends ends]

/-- An integer of 64 bits, with or without a sign. -/
inductive Number.Exact : Number → Prop where
  | integer {z : Int} (low : -2 ^ 63 ≤ z) (high : z < 2 ^ 64) : Exact (.integer z)

theorem Number.exact_nat {n : Nat} (h : n < 2 ^ 64) : Exact (.integer n) :=
  .integer (by omega) (by omega)

theorem writeNumber_ofNat (m : Nat) :
    writeNumber (.integer (Int.ofNat m)) = Nat.toDigits 10 m := by
  change (Nat.repr m).toList = _
  rw [Nat.repr_eq_ofList_toDigits, String.toList_ofList]

theorem writeNumber_negSucc (m : Nat) :
    writeNumber (.integer (Int.negSucc m)) = '-' :: Nat.toDigits 10 (m + 1) := by
  change ("-" ++ Nat.repr (m + 1)).toList = _
  rw [Nat.repr_eq_ofList_toDigits]
  simp

/-- An integer begins with its sign or with a digit. -/
theorem exists_writeNumber {n : Number} (exact : n.Exact) :
    ∃ c cs, writeNumber n = c :: cs ∧ (c = '-' ∨ c.isDigit = true) := by
  obtain @⟨z, -, -⟩ := exact
  cases z with
  | ofNat m =>
    obtain ⟨c, cs, digits⟩ := List.exists_cons_of_ne_nil (Nat.toDigits_ne_nil (n := m) (b := 10))
    refine ⟨c, cs, by rw [writeNumber_ofNat, digits], .inr ?_⟩
    exact isDigit_of_mem_toDigits (n := m) (by simp [digits])
  | negSucc m => exact ⟨_, _, writeNumber_negSucc m, .inl rfl⟩

/-- **An integer of 64 bits is read as it is written**, whatever follows it. -/
theorem readNumeral_writeNumber {n : Number} (exact : n.Exact) (ends : EndsNumber after) :
    ∃ numeral, readNumeral (writeNumber n ++ after) = some (numeral, after) ∧
      numeral.number = some n := by
  obtain @⟨z, low, high⟩ := exact
  cases z with
  | ofNat m =>
    rw [writeNumber_ofNat]
    refine ⟨_, (readNumeral_toDigits m ends).1, ?_⟩
    have small : m < Nat.pow 2 64 := by simp only [Int.ofNat_eq_natCast] at high; simp; omega
    simp [Numeral.number, ofDigits_toDigits, small]
  | negSucc m =>
    rw [writeNumber_negSucc]
    refine ⟨_, (readNumeral_toDigits (m + 1) ends).2, ?_⟩
    have small : m + 1 ≤ Nat.pow 2 63 := by simp; omega
    simp [Numeral.number, ofDigits_toDigits, small, Int.negSucc_eq]

/-! ### Strings -/

/-- The number of a control character in the four digits it is written with. -/
theorem hexUnit?_control :
    ∀ n < 32, hexUnit? '0' '0' (hexDigit (n / 16)) (hexDigit (n % 16)) = some n := by
  decide

/-- **A character is read from what it is written as.** -/
theorem readUnits_writeChar (c : Char) (after : List Char) :
    readUnits (writeChar c after) = (readUnits after).map fun r => (c.toNat :: r.1, r.2) := by
  unfold writeChar
  iterate 7
    split
    · subst_vars
      cases h : readUnits after <;> simp [readUnits, shortEscape?, h]
  split
  case isTrue control =>
    cases h : readUnits after <;> simp [readUnits, hexUnit?_control _ control, h]
  case isFalse _ backslash _ _ _ _ _ visible =>
    cases h : readUnits after <;> simp [readUnits, backslash, visible, h]

theorem readUnits_foldr_writeChar (cs after : List Char) :
    readUnits (cs.foldr writeChar ('"' :: after)) = some (cs.map Char.toNat, after) := by
  induction cs with
  | nil => simp [readUnits]
  | cons c cs ih => simp [readUnits_writeChar, ih]

/-- What follows a string is written behind it. -/
theorem writeString_append (s : String) (before after : List Char) :
    writeString s (before ++ after) = writeString s before ++ after := by
  have one : ∀ c before, writeChar c (before ++ after) = writeChar c before ++ after := by
    intro c before
    unfold writeChar
    repeat' split
    all_goals rfl
  have all : ∀ cs : List Char, cs.foldr writeChar ('"' :: (before ++ after)) =
      cs.foldr writeChar ('"' :: before) ++ after := by
    intro cs
    induction cs with
    | nil => rfl
    | cons c cs ih => rw [List.foldr_cons, List.foldr_cons, ih, one]
  rw [writeString, writeString, all, List.cons_append]

theorem length_lt_writeString (s : String) (after : List Char) :
    after.length < (writeString s after).length := by
  have split := writeString_append s [] after
  rw [List.nil_append] at split
  rw [split, List.length_append]
  exact Nat.lt_add_of_pos_left (List.length_pos_iff.2 (by simp [writeString]))

/-- No character is half of a surrogate pair. -/
theorem joinUnits_map_toNat (cs : List Char) : joinUnits (cs.map Char.toNat) = some cs := by
  induction cs with
  | nil => rfl
  | cons c cs ih =>
    have whole : isHigh c.toNat = false ∧ isLow c.toNat = false := by
      have valid : c.toNat < 0xD800 ∨ 0xDFFF < c.toNat ∧ c.toNat < 0x110000 := c.valid
      simp only [isHigh, isLow, Bool.and_eq_false_iff, decide_eq_false_iff_not]
      omega
    rw [List.map_cons, joinUnits.eq_def]
    simp [whole, ih]

/-- **A string is read as it is written.** -/
theorem readString_writeString (s : String) (after : List Char) :
    readString (s.toList.foldr writeChar ('"' :: after)) = some (some s, after) := by
  simp [readString, readUnits_foldr_writeChar, joinUnits_map_toNat]

end SyntaxLint.Json
