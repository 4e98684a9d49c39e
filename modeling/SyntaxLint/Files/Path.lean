/-!
# Files — paths

A path is a text whose segments are divided by slashes.  It can be spelled in many ways: repeated
slashes and inner dots say nothing, and two dots go up.  Its parts forget what says nothing; the
place it leads to, seen from a working directory, forgets the spelling altogether.

* `Path.parts`: what a path is made of, which is what paths are ordered by.
* `Path.place`: where a path leads when no directory along it is looked at.
* `Path.intercalate_segments`: cutting a path at its slashes loses nothing.
-/

namespace SyntaxLint

/-- A path as it is written. -/
structure Path where
  text : String
  deriving DecidableEq, Repr, Inhabited

/-- A place in the file system: the names that lead to it from the root. -/
abbrev Place := List String

/-- One step along a path. -/
inductive Part where
  | root
  | here
  | up
  | name (s : String)
  deriving DecidableEq, Repr, Inhabited, Ord

namespace Place

/-- The place one step further. -/
def step (p : Place) : Part → Place
  | .root => []
  | .here => p
  | .up => p.dropLast
  | .name s => p ++ [s]

/-- The path of a place. -/
def path (p : Place) : Path := ⟨"/" ++ "/".intercalate p⟩

/-- A place, the directory it is in, and so on up to the root. -/
def ancestors (p : Place) : List Place :=
  (List.range (p.length + 1)).map fun i => p.take (p.length - i)

/-- The names from one place down to another, if the other is in it. -/
def relative? (base : Place) (p : Place) : Option (List String) :=
  if base.isPrefixOf p then some (p.drop base.length) else none

/-- What is below a place is found again. -/
theorem relative?_append (base names : Place) : relative? base (base ++ names) = some names := by
  simp [relative?]

/-- Only what is below a place is found there. -/
theorem eq_append_of_relative? {base p : Place} {names : List String}
    (h : relative? base p = some names) : p = base ++ names := by
  by_cases hp : base.isPrefixOf p = true
  · obtain ⟨t, rfl⟩ := List.isPrefixOf_iff_prefix.1 hp
    simpa [relative?] using h
  · simp [relative?, hp] at h

end Place

namespace Path

/-- The segments of a text between its slashes. -/
def segments : List Char → List (List Char)
  | [] => [[]]
  | c :: cs =>
    if c = '/' then [] :: segments cs
    else (c :: (segments cs).headD []) :: (segments cs).tail

/-- Whether a segment says nothing: it is empty or a dot. -/
def isIdle (segment : List Char) : Bool := segment == [] || segment == ['.']

/-- The part that a segment stands for. -/
def part? (segment : List Char) : Option Part :=
  if isIdle segment then none
  else if segment == ['.', '.'] then some .up
  else some (.name (String.ofList segment))

/-- The part that the first of several segments stands for: nothing before a slash is the root, and
a dot is a part of its own. -/
def firstPart? (segment : List Char) (rest : List (List Char)) : Option Part :=
  if segment == [] then if rest.isEmpty then none else some .root
  else if segment == ['.'] then some .here
  else part? segment

/-- The parts of a path. -/
def parts (p : Path) : List Part :=
  match segments p.text.toList with
  | [] => []
  | s :: ss => (firstPart? s ss).toList ++ ss.filterMap part?

/-- Whether a path begins at the root. -/
def isRooted (p : Path) : Bool := p.text.toList.head? == some '/'

/-- Where a path leads from the directory `here`; above the root is the root. -/
def place (here : Place) (p : Path) : Place := p.parts.foldl Place.step here

/-- The name at the end of a path. -/
def fileName? (p : Path) : Option String :=
  match p.parts.getLast? with
  | some (.name s) => some s
  | _ => none

/-- The path of something below a directory. -/
def below (p : Path) (names : List String) : Path :=
  ⟨p.text ++ (if p.text.toList.getLast? = some '/' then "" else "/") ++ "/".intercalate names⟩

/-- A path that begins with a dot, without the dot and what says nothing after it and at the
end. -/
def withoutHere? (p : Path) : Option Path :=
  match segments p.text.toList with
  | ['.'] :: ss =>
    let kept := ((ss.dropWhile isIdle).reverse.dropWhile isIdle).reverse
    some ⟨"/".intercalate (kept.map String.ofList)⟩
  | _ => none

/-- Whether one path comes before another or is made of the same parts. -/
def le (p q : Path) : Bool := compare p.parts q.parts != .gt

theorem segments_ne_nil (cs : List Char) : segments cs ≠ [] := by
  cases cs with
  | nil => simp [segments]
  | cons c cs => by_cases h : c = '/' <;> simp [segments, h]

/-- Cutting a text at its slashes loses nothing. -/
theorem intercalate_segments (cs : List Char) : ['/'].intercalate (segments cs) = cs := by
  induction cs with
  | nil => rfl
  | cons c cs ih =>
    obtain ⟨s, ss, hs⟩ := List.exists_cons_of_ne_nil (segments_ne_nil cs)
    rw [hs] at ih
    by_cases h : c = '/'
    · simp [segments, h, hs, List.intercalate] at ih ⊢
      exact ih
    · cases ss <;> simp_all [segments, List.intercalate, List.intersperse]

end Path

end SyntaxLint
