/-!
# Files — patterns

A pattern stands for a set of texts, which it accepts as a whole and byte by byte.  The places
between the bytes of a text are marked where the texts of the pattern may end: all of them are
followed at once, a place is reached or not, and so no text takes longer than the pattern times
its length.

* `Pattern.accepts`: whether a pattern stands for a text.
* `Pattern.length_advance`: a pattern moves marks between the places of one text.
-/

namespace SyntaxLint

/-- A set of bytes: those in any of the ranges or, negated, those in none. -/
structure ByteSet where
  ranges : List (UInt8 × UInt8)
  negated : Bool
  deriving DecidableEq, Repr, Inhabited

namespace ByteSet

/-- Whether a byte is in the set. -/
def has (s : ByteSet) (b : UInt8) : Bool :=
  (s.ranges.any fun r => r.1 ≤ b && b ≤ r.2) != s.negated

/-- Every byte. -/
def all : ByteSet := ⟨[], true⟩

/-- One byte. -/
def single (b : UInt8) : ByteSet := ⟨[(b, b)], false⟩

end ByteSet

/-- A set of texts. -/
inductive Pattern where
  /-- the empty text -/
  | empty
  | one (s : ByteSet)
  /-- every text -/
  | anything
  | seq (first second : Pattern)
  | either (first second : Pattern)
  deriving DecidableEq, Repr, Inhabited

namespace Pattern

/-- Which places of a text are marked: the one before each byte, and the one at the end. -/
abbrev Marks := List Bool

namespace Marks

/-- The places behind a marked one, that one included; all of them if a place before was marked. -/
def onward (before : Bool) : Marks → Marks
  | [] => []
  | m :: ms => (before || m) :: onward (before || m) ms

theorem length_onward (before : Bool) (ms : Marks) : (onward before ms).length = ms.length := by
  induction ms generalizing before with
  | nil => rfl
  | cons m ms ih => simp [onward, ih]

/-- The places one byte behind a marked one, where the byte is in a set. -/
def pass (s : ByteSet) (bs : List UInt8) (ms : Marks) : Marks :=
  false :: List.zipWith (fun b m => s.has b && m) bs ms

/-- The places that are marked in either way. -/
def join (ms ns : Marks) : Marks := List.zipWith (· || ·) ms ns

end Marks

/-- The places where texts of the pattern end that begin at a marked place of `bs`. -/
def advance (bs : List UInt8) : Pattern → Marks → Marks
  | empty, ms => ms
  | one s, ms => ms.pass s bs
  | anything, ms => ms.onward false
  | seq p q, ms => q.advance bs (p.advance bs ms)
  | either p q, ms => (p.advance bs ms).join (q.advance bs ms)

/-- A pattern moves marks between the places of one text. -/
theorem length_advance (bs : List UInt8) (p : Pattern) (ms : Marks)
    (h : ms.length = bs.length + 1) : (p.advance bs ms).length = bs.length + 1 := by
  induction p generalizing ms with
  | empty => exact h
  | one s => simp [advance, Marks.pass, h]
  | anything => rw [advance, Marks.length_onward, h]
  | seq p q ihp ihq => exact ihq _ (ihp ms h)
  | either p q ihp ihq => simp [advance, Marks.join, ihp ms h, ihq ms h]

/-- The bytes of a run of characters. -/
def bytesOf (cs : List Char) : List UInt8 := cs.flatMap String.utf8EncodeChar

/-- Whether a pattern stands for a text: from the place before all of it the one at the end is
reached. -/
def accepts (p : Pattern) (text : String) : Bool :=
  let bs := bytesOf text.toList
  (p.advance bs (true :: bs.map fun _ => false)).getLast? == some true

/-- Whether a pattern is the empty one. -/
def isEmpty : Pattern → Bool
  | empty => true
  | _ => false

/-- One pattern after another. -/
def append (p q : Pattern) : Pattern :=
  if p.isEmpty then q else if q.isEmpty then p else seq p q

/-- Patterns one after the other. -/
def sequence (ps : List Pattern) : Pattern := ps.foldr append empty

/-- Any one of some patterns; the empty ones among them do not count, and if there are no others
it is the empty one. -/
def alternatives (ps : List Pattern) : Pattern :=
  match ps.filter (!·.isEmpty) with
  | [] => empty
  | p :: more => more.foldl either p

/-- One text. -/
def literal (cs : List Char) : Pattern := sequence ((bytesOf cs).map fun b => one (.single b))

/-- A slash. -/
def slash : Pattern := literal ['/']

end Pattern

end SyntaxLint
