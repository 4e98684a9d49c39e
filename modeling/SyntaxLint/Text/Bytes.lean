/-!
# Text — byte measures

Offsets and lengths count bytes of UTF-8, while text is a run of characters.  This module
measures a run of characters in bytes and cuts one at a byte offset.

* `splitBytes_append`: cutting loses nothing.
* `splitBytes_bytes_append`: a run is cut off whole at its own length.
-/

namespace SyntaxLint.Text

/-- The number of bytes a run of characters takes. -/
def bytes : List Char → Nat
  | [] => 0
  | c :: cs => c.utf8Size + bytes cs

/-- Cuts a run after the characters that fit wholly into the first `n` bytes. -/
def splitBytes : Nat → List Char → List Char × List Char
  | _, [] => ([], [])
  | n, c :: cs =>
    if c.utf8Size ≤ n then
      (c :: (splitBytes (n - c.utf8Size) cs).1, (splitBytes (n - c.utf8Size) cs).2)
    else ([], c :: cs)

/-- Whether the first `n` bytes are whole characters of the run. -/
def isBoundary : Nat → List Char → Bool
  | 0, _ => true
  | _ + 1, [] => false
  | n + 1, c :: cs => c.utf8Size ≤ n + 1 && isBoundary (n + 1 - c.utf8Size) cs

/-- Whether the first `n` bytes of a text are whole characters, found without a look at the
characters before. -/
def endsCharacter (source : String) (n : Nat) : Bool := (String.Pos.Raw.mk n).isValid source

/-- The text of `source` from byte `start` up to byte `stop`. -/
def slice (source : String) (start stop : Nat) : String :=
  String.ofList (splitBytes (stop - start) (splitBytes start source.toList).2).1

/-- `source` with the text from byte `start` up to byte `stop` replaced by `text`. -/
def splice (source : String) (start stop : Nat) (text : String) : String :=
  String.ofList (splitBytes start source.toList).1 ++ text ++
    String.ofList (splitBytes stop source.toList).2

@[simp] theorem bytes_nil : bytes [] = 0 := rfl

@[simp] theorem bytes_cons (c : Char) (cs : List Char) :
    bytes (c :: cs) = c.utf8Size + bytes cs := rfl

@[simp] theorem bytes_append (as bs : List Char) : bytes (as ++ bs) = bytes as + bytes bs := by
  induction as with
  | nil => simp
  | cons c as ih => simp [ih, Nat.add_assoc]

theorem utf8ByteSize_ofList (cs : List Char) : (String.ofList cs).utf8ByteSize = bytes cs := by
  induction cs with
  | nil => rfl
  | cons c cs ih =>
    rw [← List.singleton_append, String.ofList_append, String.utf8ByteSize_append, ih]
    simp

/-- The bytes of whole characters are those of some of the first characters. -/
theorem isBoundary_iff {n : Nat} {cs : List Char} :
    isBoundary n cs = true ↔ ∃ i, n = bytes (cs.take i) := by
  induction cs generalizing n with
  | nil => cases n <;> simp [isBoundary]
  | cons c cs ih =>
    cases n with
    | zero => exact ⟨fun _ => ⟨0, rfl⟩, fun _ => rfl⟩
    | succ n =>
      simp only [isBoundary, Bool.and_eq_true, decide_eq_true_eq, ih]
      constructor
      · rintro ⟨hc, i, hi⟩
        exact ⟨i + 1, by simp only [List.take_succ_cons, bytes_cons]; omega⟩
      · rintro ⟨_ | i, hi⟩
        · simp at hi
        · simp only [List.take_succ_cons, bytes_cons] at hi
          exact ⟨by omega, i, by omega⟩

/-- Both ways to find out where characters end agree. -/
theorem endsCharacter_eq (source : String) (n : Nat) :
    endsCharacter source n = isBoundary n source.toList := by
  rw [Bool.eq_iff_iff, isBoundary_iff, endsCharacter, String.Pos.Raw.isValid_eq_true_iff]
  conv => lhs; rw [← String.ofList_toList (s := source)]
  rw [String.Pos.Raw.isValid_ofList]
  simp only [utf8ByteSize_ofList]

/-- Cutting loses nothing. -/
theorem splitBytes_append (n : Nat) (cs : List Char) :
    (splitBytes n cs).1 ++ (splitBytes n cs).2 = cs := by
  induction cs generalizing n with
  | nil => rfl
  | cons c cs ih =>
    by_cases h : c.utf8Size ≤ n
    · simp [splitBytes, h, ih]
    · simp [splitBytes, h]

/-- A run is cut off whole at its own length. -/
theorem splitBytes_bytes_append (as bs : List Char) :
    splitBytes (bytes as) (as ++ bs) = (as, bs) := by
  induction as with
  | nil => cases bs with
    | nil => rfl
    | cons c cs => simp [splitBytes, Nat.ne_of_gt c.utf8Size_pos]
  | cons c as ih => simp [splitBytes, ih]

end SyntaxLint.Text
