import SyntaxLint.Text.Bytes

/-!
# Spans and positions

A span is a half-open range of byte offsets.  A position is the line and column an offset falls
on: lines count from 1, columns are bytes from the start of the line.
-/

namespace SyntaxLint

/-- The bytes from `start` up to, and without, `stop`. -/
structure Span where
  start : Nat
  stop : Nat
  deriving DecidableEq, Repr, Inhabited

namespace Span

/-- The empty span at an offset. -/
def emptyAt (offset : Nat) : Span := ⟨offset, offset⟩

/-- The number of bytes covered. -/
def length (s : Span) : Nat := s.stop - s.start

/-- Whether the span covers nothing. -/
def isEmpty (s : Span) : Bool := s.start == s.stop

/-- Whether the byte at `offset` is covered. -/
def contains (s : Span) (offset : Nat) : Bool := s.start ≤ offset && offset < s.stop

/-- Whether `other` lies inside the span. -/
def encloses (s other : Span) : Bool := s.start ≤ other.start && other.stop ≤ s.stop

/-- The least span that covers both. -/
def merge (s other : Span) : Span := ⟨min s.start other.start, max s.stop other.stop⟩

/-- Both ends cut down to `limit`, the start to the new end at most. -/
def clamp (s : Span) (limit : Nat) : Span := ⟨min s.start (min s.stop limit), min s.stop limit⟩

/-- An offset as it is kept in 32 bits. -/
def word (offset : Nat) : Nat := offset % Nat.pow 2 32

/-- Both ends as they are kept. -/
def wrapped (s : Span) : Span := ⟨word s.start, word s.stop⟩

/-- Spans in order of their start, then of their end. -/
def compare (s other : Span) : Ordering :=
  (Ord.compare s.start other.start).then (Ord.compare s.stop other.stop)

end Span

/-- A line, from 1, and a column in bytes, from 0. -/
structure Position where
  line : Nat
  column : Nat
  deriving DecidableEq, Repr, Inhabited

namespace Position

/-- The position reached from `here` by reading the first `offset` bytes of a text. -/
def advance : List Char → Nat → Position → Position
  | [], _, here => here
  | _ :: _, 0, here => here
  | c :: cs, offset + 1, here =>
    if c = '\n' then advance cs offset ⟨here.line + 1, 0⟩
    else advance cs (offset + 1 - c.utf8Size)
      ⟨here.line, here.column + min (offset + 1) c.utf8Size⟩

/-- The position of an offset; one past the end of the text is at its end. -/
def of (source : String) (offset : Nat) : Position := advance source.toList offset ⟨1, 0⟩

end Position

/-- The positions of both ends of a span. -/
structure Location where
  start : Position
  stop : Position
  deriving DecidableEq, Repr, Inhabited

/-- Where a span of `source` begins and ends. -/
def Location.of (source : String) (s : Span) : Location :=
  ⟨Position.of source s.start, Position.of source s.stop⟩

end SyntaxLint
