import SyntaxLint.Files.Pattern.Piece

/-!
# Files — the writing of patterns

A question mark stands for one byte and a star for any text.  Brackets hold a set of characters,
braces alternatives divided by commas, and a backslash takes the next character for itself.  Two
stars that are a whole segment stand for directories: at the beginning for any number of them, in
the middle likewise, and at the end for all that is below.  What is nested too deep is no pattern.

* `Pattern.pieces`: the pieces that a text writes.
* `Pattern.parse`: the pattern that a text writes.
-/

namespace SyntaxLint

/-- Why a text writes no pattern. -/
inductive PatternError where
  | unclosedSet
  | reversedRange (lo hi : Char)
  | danglingEscape
  | unopenedGroup
  | unclosedGroup
  | tooDeep
  deriving DecidableEq, Repr, Inhabited

def PatternError.message : PatternError → String
  | unclosedSet => "a bracket is not closed"
  | reversedRange lo hi =>
    "the range from " ++ lo.toString ++ " to " ++ hi.toString ++ " is reversed"
  | danglingEscape => "a backslash is last"
  | unopenedGroup => "a brace closes nothing"
  | unclosedGroup => "a brace is not closed"
  | tooDeep => "it is nested too deep"

namespace Pattern

/-! ### Sets in brackets -/

/-- The ranges of bytes for a range of characters: the characters are written out around one range
of bytes. -/
def byteRanges (lo hi : Char) : List (UInt8 × UInt8) :=
  let single : UInt8 → UInt8 × UInt8 := fun b => (b, b)
  if lo = hi then (bytesOf [lo]).map single
  else match (bytesOf [lo]).reverse, bytesOf [hi] with
    | last :: front, head :: back =>
      front.reverse.map single ++ (last, head) :: back.map single
    | _, _ => []

/-- A set being read. -/
structure SetReading where
  /-- whether nothing was read -/
  fresh : Bool
  negated : Bool
  /-- the ranges so far, the last first -/
  ranges : List (Char × Char)
  /-- whether a dash was read that may join two characters -/
  dash : Bool
  deriving DecidableEq, Repr

namespace SetReading

/-- After the opening bracket. -/
def start : SetReading := ⟨true, false, [], false⟩

/-- Reads a character of the set; it is none when the character closes the set.  A bracket or a
dash that comes first stands for itself, and a dash after a range widens the range. -/
def step (s : SetReading) (c : Char) : Except PatternError (Option SetReading) :=
  if s.fresh && (c == '!' || c == '^') then .ok (some ⟨false, true, [], false⟩)
  else match s.ranges with
    | [] => .ok (some ⟨false, s.negated, [(c, c)], false⟩)
    | (lo, hi) :: more =>
      if c = ']' then .ok none
      else if s.dash then
        if c < lo then .error (.reversedRange lo c)
        else .ok (some ⟨false, s.negated, (lo, c) :: more, false⟩)
      else if c = '-' then .ok (some ⟨false, s.negated, s.ranges, true⟩)
      else .ok (some ⟨false, s.negated, (c, c) :: (lo, hi) :: more, false⟩)

/-- The set that was read; a dash left over stands for itself. -/
def set (s : SetReading) : ByteSet :=
  let ranges := (if s.dash then ('-', '-') :: s.ranges else s.ranges).reverse
  ⟨ranges.flatMap fun r => byteRanges r.1 r.2, s.negated⟩

end SetReading

/-! ### Signs -/

/-- A sign of a written pattern. -/
inductive Sign where
  | plain (c : Char)
  | escaped (c : Char)
  | any
  | star
  | set (s : ByteSet)
  | opening
  | closing
  | comma
  deriving DecidableEq, Repr

/-- Where in a sign one is. -/
inductive Mode where
  | between
  | escape
  | inSet (s : SetReading)
  deriving DecidableEq, Repr

/-- The sign that one character is. -/
def sign (c : Char) : Sign :=
  match c with
  | '?' => .any
  | '*' => .star
  | '\x7b' => .opening
  | '\x7d' => .closing
  | ',' => .comma
  | c => .plain c

/-- The signs of a text. -/
def signs : Mode → List Char → Except PatternError (List Sign)
  | .between, [] => .ok []
  | .escape, [] => .error .danglingEscape
  | .inSet _, [] => .error .unclosedSet
  | .between, c :: cs =>
    if c = '\\' then signs .escape cs
    else if c = '[' then signs (.inSet .start) cs
    else (sign c :: ·) <$> signs .between cs
  | .escape, c :: cs => (.escaped c :: ·) <$> signs .between cs
  | .inSet s, c :: cs =>
    match s.step c with
    | .error e => .error e
    | .ok none => (.set s.set :: ·) <$> signs .between cs
    | .ok (some t) => signs (.inSet t) cs

/-! ### Groups -/

/-- A group of alternatives being read. -/
structure Group where
  /-- the alternatives before, the last first -/
  before : List (List Piece)
  /-- the pieces of the alternative being read, the last first -/
  pieces : List Piece
  deriving Repr

namespace Group

/-- Before anything is read. -/
def start : Group := ⟨[], []⟩

/-- Reads a piece. -/
def push (g : Group) (p : Piece) : Group := { g with pieces := p :: g.pieces }

/-- Reads a piece in place of the last one, unless that stands for directories at an end. -/
def replace (g : Group) (p : Piece) : Group :=
  match g.pieces with
  | [] => g.push p
  | .leading :: _ => g
  | .trailing :: _ => g
  | _ :: more => { g with pieces := p :: more }

/-- The alternative being read. -/
def current (g : Group) : List Piece := g.pieces.reverse

/-- The group as a piece. -/
def piece (g : Group) : Piece := .group (g.current :: g.before).reverse

/-- Goes on to the next alternative. -/
def next (g : Group) : Group := ⟨g.current :: g.before, []⟩

end Group

/-- Groups being read, one in the other. -/
structure Reading where
  /-- the innermost group, or what is outside all braces -/
  group : Group
  /-- what it is in, inside out -/
  outer : List Group
  deriving Repr

namespace Reading

/-- Before anything is read. -/
def start : Reading := ⟨.start, []⟩

/-- Whether a brace is open. -/
def isInside (r : Reading) : Bool := !r.outer.isEmpty

/-- Reads a piece. -/
def push (r : Reading) (p : Piece) : Reading := { r with group := r.group.push p }

/-- Reads a piece in place of the last one. -/
def replace (r : Reading) (p : Piece) : Reading := { r with group := r.group.replace p }

/-- Opens a group. -/
def enter (r : Reading) : Reading := ⟨.start, r.group :: r.outer⟩

/-- Closes the innermost group. -/
def leave (r : Reading) : Except PatternError Reading :=
  match r.outer with
  | [] => .error .unopenedGroup
  | g :: more => .ok ⟨g.push r.group.piece, more⟩

/-- What is read, when the text is at its end. -/
def result (r : Reading) : Except PatternError (List Piece) :=
  if r.isInside then .error .unclosedGroup else .ok r.group.current

/-- Whether two stars after a sign may be a segment. -/
def beginsSegment (r : Reading) : Option Sign → Bool
  | some (.plain c) => c == '/'
  | some (.escaped c) => c == '/' || r.isInside && (c == ',' || c == '\x7b')
  | _ => false

/-- Whether two stars before a sign are the end of a pattern. -/
def isEnd (r : Reading) : Option Sign → Bool
  | none => true
  | some .comma => r.isInside
  | some .closing => r.isInside
  | _ => false

/-- Reads two stars before a sign other than a slash. -/
def stars (r : Reading) (last? next? : Option Sign) : Reading :=
  if r.group.pieces.isEmpty && next?.isNone then r.push .leading
  else if !r.group.pieces.isEmpty && r.beginsSegment last? && r.isEnd next? then
    r.replace .trailing
  else (r.push .star).push .star

/-- Reads two stars and a slash. -/
def starsSlash (r : Reading) (last? : Option Sign) : Reading :=
  if r.group.pieces.isEmpty then r.push .leading
  else if r.beginsSegment last? then r.replace .inner
  else ((r.push .star).push .star).push (.char '/')

/-- Reads a sign by itself. -/
def sign (r : Reading) : Sign → Except PatternError Reading
  | .plain c => .ok (r.push (.char c))
  | .escaped c => .ok (r.push (.char c))
  | .any => .ok (r.push .any)
  | .star => .ok (r.push .star)
  | .set s => .ok (r.push (.set s))
  | .opening => .ok r.enter
  | .closing => r.leave
  | .comma =>
    .ok (if r.isInside then { r with group := r.group.next } else r.push (.char ','))

/-- Reads signs after the sign `last?`. -/
def signs (r : Reading) (last? : Option Sign) : List Sign → Except PatternError (List Piece)
  | [] => r.result
  | .star :: .star :: .plain '/' :: rest => (r.starsSlash last?).signs (some (.plain '/')) rest
  | .star :: .star :: rest => (r.stars last? rest.head?).signs (some .star) rest
  | s :: rest =>
    match r.sign s with
    | .ok t => t.signs (some s) rest
    | .error e => .error e

end Reading

/-- The pieces that a text writes. -/
def pieces (text : String) : Except PatternError (List Piece) :=
  match signs .between text.toList with
  | .ok found => Reading.start.signs none found
  | .error e => .error e

/-- The deepest nesting of a pattern that is read. -/
def maxDepth : Nat := 250

/-- The pattern of pieces.  Stars alone stand for everything. -/
def ofPieces : List Piece → Pattern
  | [.leading] => anything
  | ps => Piece.sequencePattern ps

/-- The pattern that a text writes. -/
def parse (text : String) : Except PatternError Pattern :=
  match pieces text with
  | .ok ps => if Piece.depth ps ≤ maxDepth then .ok (ofPieces ps) else .error .tooDeep
  | .error e => .error e

end Pattern

end SyntaxLint
