import SyntaxLint.Files.Pattern.Parse
import SyntaxLint.Files.Source

/-!
# Files — discovery

Which files a list of paths asks for.  A directory stands for the files below it whose names tell a
form; a file stands for itself.  Patterns leave files out; they speak of paths as written and of
places below a base directory.

* `Exclusion.covers`: whether a path is left out.
* `Disk.discover`: the files asked for, in order.
-/

namespace SyntaxLint

/-- What to leave out. -/
structure Exclusion where
  patterns : List Pattern
  /-- the directory that patterns may be relative to -/
  base : Option Place
  deriving DecidableEq, Repr, Inhabited

namespace Exclusion

/-- Whether any pattern stands for a text. -/
def accepts (x : Exclusion) (text : String) : Bool := x.patterns.any (·.accepts text)

/-- Whether a place is left out for what it is below the base directory. -/
def coversPlace (x : Exclusion) (p : Place) : Bool :=
  match x.base.bind (·.relative? p) with
  | some names => x.accepts ("/".intercalate names)
  | none => false

/-- Whether a path seen from the directory `here` is left out. -/
def covers (x : Exclusion) (here : Place) (p : Path) : Bool :=
  x.accepts p.text || p.withoutHere?.any (fun q => x.accepts q.text) ||
    x.coversPlace (p.place here)

/-- The exclusion that pattern texts write. -/
def ofTexts (texts : List String) (base : Option Place) : Except PatternError Exclusion := do
  return ⟨← texts.mapM Pattern.parse, base⟩

end Exclusion

namespace Path

/-- Of neighbours made of the same parts the first. -/
def distinct : List Path → List Path
  | [] => []
  | p :: ps =>
    match distinct ps with
    | [] => [p]
    | q :: qs => if p.parts = q.parts then p :: qs else p :: q :: qs

/-- Nothing is added and the order is kept. -/
theorem distinct_sublist (ps : List Path) : (distinct ps).Sublist ps := by
  induction ps with
  | nil => exact .slnil
  | cons p ps ih =>
    simp only [distinct]
    split
    · exact .cons_cons _ (List.nil_sublist _)
    next q qs e =>
      rw [e] at ih
      split
      · exact .cons_cons _ ((List.sublist_cons_self q qs).trans ih)
      · exact .cons_cons _ ih

end Path

namespace Disk

/-- The files that a path asks for. -/
def requested (d : Disk) (x : Exclusion) (path : Path) : List Path :=
  match d.directory? path with
  | some place =>
    (d.filesBelow path place).filter fun p => (Form.ofPath? p).isSome && !x.covers d.here p
  | none => if (d.read? path).isSome && !x.covers d.here path then [path] else []

/-- The files that paths ask for, in order of their parts and each path once. -/
def discover (d : Disk) (x : Exclusion) (paths : List Path) : List Path :=
  Path.distinct ((paths.flatMap (d.requested x)).mergeSort Path.le)

end Disk

end SyntaxLint
