import SyntaxLint.Files.Pattern.Basic

/-!
# Files — pieces of patterns

A written pattern is a sequence of pieces, and a group holds sequences of its own.  Written out in
full, pieces are nested: a choice is in its group, a sequence in the choice, and a star, a set or
another group in the sequence.  How deep they are nested does not change what the pattern stands
for, but only patterns up to a depth are read.

* `Piece.pattern`, `Piece.sequencePattern`: the pattern of a piece, and of a sequence.
* `Piece.depth`: how deep a whole pattern is nested.
-/

namespace SyntaxLint.Pattern

/-- A piece of a written pattern. -/
inductive Piece where
  | char (c : Char)
  /-- a question mark -/
  | any
  | star
  | set (s : ByteSet)
  /-- two stars at the beginning, with the slash after them -/
  | leading
  /-- two stars between slashes, with the slashes -/
  | inner
  /-- two stars at the end, with the slash before them -/
  | trailing
  | group (alternatives : List (List Piece))
  deriving Repr, Inhabited

namespace Piece

/-! ### What pieces stand for -/

mutual

/-- The pattern of a piece. -/
def pattern : Piece → Pattern
  | char c => literal [c]
  | any => one .all
  | star => anything
  | set s => one s
  | leading => either empty (seq anything slash)
  | inner => either slash (Pattern.sequence [slash, anything, slash])
  | trailing => seq slash anything
  | group as => alternatives (alternativePatterns as)

/-- The pattern of a sequence. -/
def sequencePattern : List Piece → Pattern
  | [] => empty
  | p :: ps => p.pattern.append (sequencePattern ps)

/-- The pattern of each sequence. -/
def alternativePatterns : List (List Piece) → List Pattern
  | [] => []
  | ps :: more => sequencePattern ps :: alternativePatterns more

end

/-! ### How deep pieces are nested -/

/-- The room that pieces take in a sequence. -/
structure Extent where
  /-- the number of parts of the sequence -/
  parts : Nat
  /-- how deep the parts are nested -/
  depth : Nat
  deriving DecidableEq, Repr

namespace Extent

/-- Without parts. -/
def none : Extent := ⟨0, 0⟩

/-- Pieces and what follows them. -/
def append (e f : Extent) : Extent := ⟨e.parts + f.parts, max e.depth f.depth⟩

/-- The depth of a sequence; one part alone makes none. -/
def sequenceDepth (e : Extent) : Nat := if 1 < e.parts then e.depth + 1 else e.depth

/-- A group of sequences.  It leaves out those without parts, and one sequence alone makes no
choice. -/
def group (es : List Extent) : Extent :=
  match es.filter (0 < ·.parts) with
  | [] => none
  | [e] => ⟨1, e.sequenceDepth + 1⟩
  | es => ⟨1, (es.map sequenceDepth).foldr max 0 + 2⟩

end Extent

mutual

/-- The extent of a piece.  The bytes of a character are a part each; stars for directories, but
for those at the end, are written out as a group of their own. -/
def extent : Piece → Extent
  | char c => ⟨c.utf8Size, 0⟩
  | any => ⟨1, 0⟩
  | star => ⟨1, 1⟩
  | set s => ⟨1, if s.ranges.length = 1 then 1 else 2⟩
  | leading => ⟨1, 4⟩
  | inner => ⟨1, 4⟩
  | trailing => ⟨2, 1⟩
  | group as => .group (alternativeExtents as)

/-- The extent of a sequence. -/
def sequenceExtent : List Piece → Extent
  | [] => .none
  | p :: ps => p.extent.append (sequenceExtent ps)

/-- The extent of each sequence. -/
def alternativeExtents : List (List Piece) → List Extent
  | [] => []
  | ps :: more => sequenceExtent ps :: alternativeExtents more

end

/-- How deep a whole pattern is nested: its two ends make it a sequence. -/
def depth (ps : List Piece) : Nat := (sequenceExtent ps).depth + 1

end Piece

end SyntaxLint.Pattern
