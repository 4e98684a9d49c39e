import Mathlib.Data.List.DropRight
import Mathlib.Data.Prod.Lex
import Mathlib.Order.Interval.Set.Defs
import Mathlib.Order.Monotone.Defs
import SyntaxLint.Proofs.Text.Utf8
import SyntaxLint.Span

/-!
# Proofs — Text — positions in order

A position is counted byte by byte: a line break begins a line, and any other byte goes on with the
one there is.  So a position is told by two scans of what stands before an offset, one for the
number of line breaks and one for what follows the last of them; every byte leads to a later
position, and no two offsets within a source share one.

* `Text.lineStart?`: where a line begins.
* `Position.instLinearOrder`: positions in order of their lines, then of their columns.
* `Position.of_eq_behind`: the two scans.
* `Position.fits`: which positions have numbers of 32 bits.
* `Position.orders`: the positions of a source.
-/

namespace SyntaxLint

/-! ### Lines -/

namespace Text

/-- The byte of a line break. -/
def lineBreak : UInt8 := 10

/-- Where the last line of some bytes begins: right behind the last line break. -/
def lastLine (bs : List UInt8) : Nat := (bs.rdropWhile (· != lineBreak)).length

/-- Where a line begins: the first at the start, and every other right behind the line break that
ends the one before it. -/
def lineStart? (bs : List UInt8) : Nat → Option Nat
  | 0 => none
  | 1 => some 0
  | n + 2 => (bs.idxsOf lineBreak)[n]?.map (· + 1)

variable {bs xs ys : List UInt8} {b : UInt8} {c : Char}

theorem lastLine_concat (bs : List UInt8) (b : UInt8) :
    lastLine (bs ++ [b]) = if b = lineBreak then bs.length + 1 else lastLine bs := by
  rw [lastLine, lastLine, List.rdropWhile_concat]
  by_cases h : b = lineBreak <;> simp [h]

theorem lastLine_le_length (bs : List UInt8) : lastLine bs ≤ bs.length :=
  (List.rdropWhile_prefix (· != lineBreak) bs).length_le

/-- The last line of what stands before an offset begins where the line of that number does. -/
theorem lineStart?_append (xs ys : List UInt8) :
    lineStart? (xs ++ ys) (xs.count lineBreak + 1) = some (lastLine xs) := by
  induction xs using List.reverseRecOn generalizing ys with
  | nil => rfl
  | append_singleton xs b ih =>
    rw [List.append_assoc, List.count_append, List.count_singleton, lastLine_concat]
    by_cases h : b = lineBreak
    · have found : ((xs ++ ([b] ++ ys)).idxsOf lineBreak)[xs.count lineBreak]? =
          some xs.length := by
        rw [List.idxsOf_append, List.singleton_append, List.idxsOf_cons, if_pos (beq_iff_eq.2 h),
          List.getElem?_append_right (Nat.le_of_eq List.length_idxsOf), List.length_idxsOf]
        simp
      rw [if_pos (beq_iff_eq.2 h), if_pos h, lineStart?, found]
      rfl
    · rw [if_neg (by simpa using h), if_neg h]
      exact ih ([b] ++ ys)

/-- The line after that begins behind the offset, if there is one. -/
theorem lt_of_lineStart?_append (xs ys : List UInt8) {start : Nat}
    (h : lineStart? (xs ++ ys) (xs.count lineBreak + 2) = some start) : xs.length < start := by
  rw [lineStart?, List.idxsOf_append,
    List.getElem?_append_right (Nat.le_of_eq List.length_idxsOf)] at h
  obtain ⟨i, found, rfl⟩ := Option.map_eq_some_iff.1 h
  have := List.ge_of_mem_idxsOf i (List.mem_of_getElem? found)
  omega

/-- Characters other than a line break have no byte of one. -/
theorem lineBreak_not_mem (h : c ≠ '\n') : lineBreak ∉ String.utf8EncodeChar c := by
  have other : c.val.toNat ≠ 10 := fun e => h (Char.toNat_inj.1 e)
  have ne : ∀ n, n % 256 ≠ 10 → lineBreak ≠ UInt8.ofNat n := fun n ne e => by
    rw [← UInt8.toNat_inj, UInt8.toNat_ofNat'] at e
    exact ne e.symm
  unfold String.utf8EncodeChar
  dsimp only
  generalize c.val.toNat = n at *
  split_ifs <;> simp only [List.mem_cons, List.not_mem_nil, or_false, not_or]
  · exact ne _ (by omega)
  · exact ⟨ne _ (by omega), ne _ (by omega)⟩
  · exact ⟨ne _ (by omega), ne _ (by omega), ne _ (by omega)⟩
  · exact ⟨ne _ (by omega), ne _ (by omega), ne _ (by omega), ne _ (by omega)⟩

end Text

/-! ### The order of positions -/

namespace Position

open Text

variable {p q here : Position} {bs xs : List UInt8} {b : UInt8} {o o₁ o₂ : Nat}

/-- Positions in order of their lines, then of their columns. -/
instance instLinearOrder : LinearOrder Position :=
  .lift' (fun p => toLex (p.line, p.column)) fun p q h => by
    cases p
    cases q
    cases h
    rfl

theorem lt_iff : p < q ↔ p.line < q.line ∨ p.line = q.line ∧ p.column < q.column :=
  Prod.Lex.toLex_lt_toLex

/-! ### Byte by byte -/

/-- The position behind one more byte. -/
def pass (here : Position) (b : UInt8) : Position :=
  if b = lineBreak then ⟨here.line + 1, 0⟩ else ⟨here.line, here.column + 1⟩

theorem lt_pass (here : Position) (b : UInt8) : here < here.pass b := by
  rw [lt_iff, pass]
  split
  · exact .inl (Nat.lt_succ_self _)
  · exact .inr ⟨rfl, Nat.lt_succ_self _⟩

theorem le_foldl_pass (here : Position) (bs : List UInt8) : here ≤ bs.foldl pass here := by
  induction bs generalizing here with
  | nil => exact le_refl _
  | cons b bs ih => exact (lt_pass here b).le.trans (ih _)

/-- Bytes without a line break. -/
theorem foldl_pass_of_not_mem (h : lineBreak ∉ bs) (here : Position) :
    bs.foldl pass here = ⟨here.line, here.column + bs.length⟩ := by
  induction bs generalizing here with
  | nil => rfl
  | cons b bs ih =>
    rw [List.mem_cons, not_or] at h
    rw [List.foldl_cons, pass, if_neg (Ne.symm h.1), ih h.2, List.length_cons,
      Nat.add_assoc, Nat.add_comm 1]

/-- A text is read byte by byte up to an offset, which may be within a character. -/
theorem advance_eq (cs : List Char) (offset : Nat) (here : Position) :
    advance cs offset here =
      ((cs.flatMap String.utf8EncodeChar).take offset).foldl pass here := by
  induction cs generalizing offset here with
  | nil => rw [advance, List.flatMap_nil, List.take_nil, List.foldl_nil]
  | cons c cs ih =>
    cases offset with
    | zero => rfl
    | succ offset =>
      rw [advance, List.flatMap_cons]
      by_cases h : c = '\n'
      · rw [if_pos h, ih, h]
        rfl
      · have none := lineBreak_not_mem h
        rw [if_neg h, ih, List.take_append, List.foldl_append, String.length_utf8EncodeChar,
          foldl_pass_of_not_mem fun m => none (List.mem_of_mem_take m), List.length_take,
          String.length_utf8EncodeChar]

/-! ### Two scans -/

/-- The position behind some bytes, told by what they are: the number of line breaks, and what
stands behind the last of them. -/
def behind (bs : List UInt8) : Position := ⟨bs.count lineBreak + 1, bs.length - lastLine bs⟩

theorem foldl_pass_eq_behind (bs : List UInt8) : bs.foldl pass ⟨1, 0⟩ = behind bs := by
  induction bs using List.reverseRecOn with
  | nil => rfl
  | append_singleton bs b ih =>
    have within := lastLine_le_length bs
    rw [List.foldl_concat, ih, pass, behind, behind, List.count_append, List.count_singleton,
      lastLine_concat, List.length_append]
    by_cases h : b = lineBreak
    · simp [h]
    · simp [h]
      omega

/-- **The position of an offset** is told by two scans of the bytes before it. -/
theorem of_eq_behind (source : String) (o : Nat) : of source o = behind ((utf8 source).take o) := by
  rw [of, advance_eq, ← utf8_eq, foldl_pass_eq_behind]

/-- A line begins for every byte before it at most, and so does a column. -/
theorem line_add_column_le (source : String) (o : Nat) :
    (of source o).line + (of source o).column ≤ o + 1 := by
  have count : ∀ bs : List UInt8, bs.count lineBreak ≤ lastLine bs := by
    intro bs
    induction bs using List.reverseRecOn with
    | nil => exact Nat.le_refl 0
    | append_singleton bs b ih =>
      have within := lastLine_le_length bs
      rw [List.count_append, List.count_singleton, lastLine_concat]
      by_cases h : b = lineBreak
      · simp only [h, beq_self_eq_true, if_true]
        omega
      · simpa [h] using ih
  have here := count ((utf8 source).take o)
  have within := lastLine_le_length ((utf8 source).take o)
  have short : ((utf8 source).take o).length ≤ o := List.length_take_le ..
  rw [of_eq_behind, behind]
  dsimp only
  omega

/-- A line break for every byte before an offset, and there is a line for each. -/
theorem line_eq_succ_iff (source : String) (o : Nat) :
    (of source o).line = o + 1 ↔ (utf8 source).take o = List.replicate o lineBreak := by
  have most : ((utf8 source).take o).count lineBreak ≤ ((utf8 source).take o).length :=
    List.count_le_length
  have short : ((utf8 source).take o).length ≤ o := List.length_take_le ..
  rw [of_eq_behind, behind]
  constructor
  · intro full
    dsimp only at full
    have whole : ((utf8 source).take o).count lineBreak = ((utf8 source).take o).length := by omega
    refine List.eq_replicate_iff.2 ⟨by omega, fun b mem => ?_⟩
    exact (List.count_eq_length.1 whole b mem).symm
  · intro breaks
    rw [breaks, List.count_replicate_self]

/-- At an offset of 32 bits the column is one of 32 bits, and so is the line, but for the one behind
as many line breaks as there can be. -/
theorem fits (source : String) {o : Nat} (h : o < 2 ^ 32) :
    (of source o).column < 2 ^ 32 ∧
    (2 ^ 32 ≤ (of source o).line ↔
      o = 2 ^ 32 - 1 ∧ (utf8 source).take o = List.replicate o lineBreak) := by
  have both := line_add_column_le source o
  have first : 1 ≤ (of source o).line := by
    rw [of_eq_behind, behind]
    exact Nat.le_add_left ..
  refine ⟨by omega, fun large => ?_, ?_⟩
  · have last : o = 2 ^ 32 - 1 := by omega
    exact ⟨last, (line_eq_succ_iff source o).1 (by omega)⟩
  · rintro ⟨last, breaks⟩
    rw [(line_eq_succ_iff source o).2 breaks]
    omega

/-- **A later offset has a later position**, within a source. -/
theorem strictMonoOn_of (source : String) :
    StrictMonoOn (of source) (Set.Iic source.utf8ByteSize) := by
  intro o₁ _ o₂ within lt
  rw [Set.mem_Iic, ← length_utf8] at within
  have first : (utf8 source).take (o₁ + 1) = (utf8 source).take o₁ ++ [(utf8 source)[o₁]] :=
    List.take_succ_eq_append_getElem (by omega)
  have split : (utf8 source).take o₂ =
      (utf8 source).take (o₁ + 1) ++ ((utf8 source).take o₂).drop (o₁ + 1) := by
    conv => lhs; rw [← List.take_append_drop (o₁ + 1) ((utf8 source).take o₂)]
    rw [List.take_take, Nat.min_eq_left lt]
  rw [of_eq_behind, of_eq_behind, ← foldl_pass_eq_behind, ← foldl_pass_eq_behind, split, first,
    List.foldl_append, List.foldl_concat]
  exact (lt_pass _ _).trans_le (le_foldl_pass _ _)

theorem of_of_le {source : String} (h : source.utf8ByteSize ≤ o) :
    of source o = of source source.utf8ByteSize := by
  rw [← length_utf8] at *
  rw [of_eq_behind, of_eq_behind, List.take_of_length_le h, List.take_length]

theorem monotone_of (source : String) : Monotone (of source) := by
  intro o₁ o₂ le
  rcases Nat.le_total o₂ source.utf8ByteSize with within | past
  · exact (strictMonoOn_of source).monotoneOn (Set.mem_Iic.2 (le.trans within))
      (Set.mem_Iic.2 within) le
  · rw [of_of_le past]
    rcases Nat.le_total o₁ source.utf8ByteSize with within | past
    · exact (strictMonoOn_of source).monotoneOn (Set.mem_Iic.2 within)
        (Set.mem_Iic.2 (Nat.le_refl _)) within
    · rw [of_of_le past]

/-! ### The positions of a source -/

/-- What the positions of the offsets of a source are, and how they are ordered. -/
structure Orders (source : String) : Prop where
  scanned : ∀ o, of source o = behind ((utf8 source).take o)
  ordered : ∀ o₁ ≤ source.utf8ByteSize, ∀ o₂ ≤ source.utf8ByteSize,
    (of source o₁ < of source o₂ ↔ o₁ < o₂)
  distinct : ∀ o₁ ≤ source.utf8ByteSize, ∀ o₂ ≤ source.utf8ByteSize,
    of source o₁ = of source o₂ → o₁ = o₂
  /-- the line of an offset begins where the column says, and the next line behind the offset -/
  placed : ∀ o ≤ source.utf8ByteSize,
    (∃ start, lineStart? (utf8 source) (of source o).line = some start ∧
      o = start + (of source o).column) ∧
    ∀ next, lineStart? (utf8 source) ((of source o).line + 1) = some next → o < next
  clamped : ∀ o, source.utf8ByteSize ≤ o → of source o = of source source.utf8ByteSize
  small : ∀ o, (of source o).line + (of source o).column ≤ o + 1
  /-- both numbers have 32 bits where the offset has, with one exception: the line behind a text of
  line breaks alone, as long as a text can be -/
  fits : ∀ o < 2 ^ 32, (of source o).column < 2 ^ 32 ∧
    (2 ^ 32 ≤ (of source o).line ↔
      o = 2 ^ 32 - 1 ∧ (utf8 source).take o = List.replicate o lineBreak)
  location : ∀ s : Span, s.start ≤ s.stop →
    (Location.of source s).start ≤ (Location.of source s).stop

/-- **The positions of a source** are in the order of the offsets, and an offset is found again from
its position. -/
theorem orders (source : String) : Orders source where
  scanned := of_eq_behind source
  ordered _ h₁ _ h₂ := (strictMonoOn_of source).lt_iff_lt (Set.mem_Iic.2 h₁) (Set.mem_Iic.2 h₂)
  distinct _ h₁ _ h₂ := (strictMonoOn_of source).injOn (Set.mem_Iic.2 h₁) (Set.mem_Iic.2 h₂)
  placed o h := by
    have length : ((utf8 source).take o).length = o := by
      rw [List.length_take, length_utf8, Nat.min_eq_left h]
    have here := lineStart?_append ((utf8 source).take o) ((utf8 source).drop o)
    have next := @lt_of_lineStart?_append ((utf8 source).take o) ((utf8 source).drop o)
    have within := lastLine_le_length ((utf8 source).take o)
    rw [List.take_append_drop] at here next
    rw [length] at next within
    rw [of_eq_behind]
    refine ⟨⟨_, here, ?_⟩, fun start => next⟩
    rw [behind, length]
    exact (Nat.add_sub_cancel' within).symm
  clamped _ := of_of_le
  small := line_add_column_le source
  fits _ := fits source
  location _ h := monotone_of source h

end Position

end SyntaxLint
