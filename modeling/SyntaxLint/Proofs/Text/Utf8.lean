import Mathlib.Data.String.Basic
import Mathlib.Tactic.SplitIfs
import SyntaxLint.Text.Bytes

/-!
# Proofs — Text — UTF-8

The bytes of a text are those of its characters, one after the other.  A character of several bytes
has its highest bits in the first and six more in each of the others, and one of more bytes has a
higher first byte; so texts are ordered by their characters just as by their bytes.

* `Text.utf8`, `Text.utf8_eq`: the bytes of a text.
* `Text.utf8_lt_iff`, `Text.utf8_le_iff`: the order of texts is that of their bytes.
-/

namespace SyntaxLint.Text

/-- The bytes of a text. -/
def utf8 (s : String) : List UInt8 := s.toByteArray.data.toList

variable {s t : String} {m n : Nat} {c d : Char} {f : Nat → List UInt8}

theorem utf8_eq (s : String) : utf8 s = s.toList.flatMap String.utf8EncodeChar := by
  conv => lhs; rw [← String.ofList_toList (s := s)]
  rw [utf8, String.toByteArray_ofList, List.utf8Encode, List.data_toByteArray]

theorem length_utf8 (s : String) : (utf8 s).length = s.utf8ByteSize := by
  rw [utf8, Array.length_toList]
  exact String.size_toByteArray

/-! ### Numbers in bytes -/

theorem cons_ofNat_lt (h : m < n) (small : n < 256) (bs ds : List UInt8) :
    UInt8.ofNat m :: bs < UInt8.ofNat n :: ds := by
  refine List.cons_lt_cons_iff.2 (.inl ?_)
  rw [UInt8.lt_iff_toNat_lt, UInt8.toNat_ofNat', UInt8.toNat_ofNat']
  omega

/-- A number below `width` in one byte, above `base`. -/
def firstByte (base width n : Nat) : List UInt8 := [UInt8.ofNat (n % width + base)]

/-- A number with its last six bits in a byte of their own. -/
def continued (f : Nat → List UInt8) (n : Nat) : List UInt8 :=
  f (n / 64) ++ [UInt8.ofNat (n % 64 + 128)]

/-- Of two numbers below a bound the smaller is written as bytes that come first, whatever follows
either. -/
def Rising (bound : Nat) (f : Nat → List UInt8) : Prop :=
  ∀ m n, m < n → n < bound → ∀ bs ds, f m ++ bs < f n ++ ds

theorem rising_firstByte (base width : Nat) (fits : base + width ≤ 256) :
    Rising width (firstByte base width) := by
  intro m n lt small bs ds
  rw [firstByte, firstByte, Nat.mod_eq_of_lt small, Nat.mod_eq_of_lt (Nat.lt_trans lt small)]
  exact cons_ofNat_lt (by omega) (by omega) bs ds

theorem Rising.continued {bound : Nat} (h : Rising bound f) :
    Rising (64 * bound) (continued f) := by
  intro m n lt small bs ds
  rw [Text.continued, Text.continued, List.append_assoc, List.append_assoc]
  by_cases same : m / 64 = n / 64
  · rw [same]
    exact List.append_left_lt (cons_ofNat_lt (by omega) (by omega) bs ds)
  · exact h _ _ (by omega) (by omega) _ _

/-! ### Characters and texts in order -/

/-- **Characters in order have their bytes in order**, whatever follows them. -/
theorem utf8EncodeChar_append_lt (h : c < d) (bs ds : List UInt8) :
    String.utf8EncodeChar c ++ bs < String.utf8EncodeChar d ++ ds := by
  have lt : c.val.toNat < d.val.toNat := h
  have high : d.val.toNat < 0x110000 := by
    have valid := d.valid
    simp only [UInt32.isValidChar, Nat.isValidChar] at valid
    omega
  have two := (rising_firstByte 192 32 (by decide)).continued
  have three := (rising_firstByte 224 16 (by decide)).continued.continued
  have four := (rising_firstByte 240 8 (by decide)).continued.continued.continued
  unfold String.utf8EncodeChar
  dsimp only
  generalize c.val.toNat = m at *
  generalize d.val.toNat = n at *
  split_ifs
  -- characters of one byte, or of different lengths, differ in their first bytes
  any_goals refine cons_ofNat_lt ?_ ?_ _ _ <;> omega
  · simpa only [continued, firstByte, List.cons_append, List.nil_append]
      using two m n lt (by omega) bs ds
  · simpa only [continued, firstByte, Nat.div_div_eq_div_mul, List.cons_append, List.nil_append]
      using three m n lt (by omega) bs ds
  · simpa only [continued, firstByte, Nat.div_div_eq_div_mul, List.cons_append, List.nil_append]
      using four m n lt (by omega) bs ds

theorem flatMap_utf8EncodeChar_lt {cs ds : List Char} (h : cs < ds) :
    cs.flatMap String.utf8EncodeChar < ds.flatMap String.utf8EncodeChar := by
  induction cs generalizing ds with
  | nil =>
    cases ds with
    | nil => exact absurd h (List.lt_irrefl _)
    | cons d ds =>
      obtain ⟨b, bs, first⟩ := List.exists_cons_of_ne_nil (String.utf8EncodeChar_ne_nil (c := d))
      rw [List.flatMap_nil, List.flatMap_cons, first]
      exact List.nil_lt_cons b _
  | cons c cs ih =>
    cases ds with
    | nil => exact absurd h (List.not_lt_nil _)
    | cons d ds =>
      rw [List.flatMap_cons, List.flatMap_cons]
      rcases List.cons_lt_cons_iff.1 h with lt | ⟨rfl, lt⟩
      · exact utf8EncodeChar_append_lt lt _ _
      · exact List.append_left_lt (ih lt)

/-- **Texts are ordered as their bytes are.** -/
theorem utf8_lt_iff : utf8 s < utf8 t ↔ s < t := by
  have mono : ∀ {s t : String}, s < t → utf8 s < utf8 t := fun h => by
    rw [utf8_eq, utf8_eq]
    exact flatMap_utf8EncodeChar_lt (String.lt_iff_toList_lt.1 h)
  refine ⟨fun h => ?_, mono⟩
  rcases lt_trichotomy s t with lt | rfl | gt
  · exact lt
  · exact absurd h (List.lt_irrefl _)
  · exact absurd (mono gt) (List.lt_asymm h)

theorem utf8_le_iff : utf8 s ≤ utf8 t ↔ s ≤ t := by
  rw [← List.not_lt, utf8_lt_iff, not_lt]

end SyntaxLint.Text
