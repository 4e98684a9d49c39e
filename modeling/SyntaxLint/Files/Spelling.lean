import Mathlib.Data.List.DropRight
import SyntaxLint.Files.Discovery

/-!
# Files — paths as texts

Paths are made absolute and normal by operations on their texts, and what a path goes on with behind
another is a text as well.  The disk is not looked at.

* `Path.absolute?`, `Path.normal`, `Path.relative?`: the operations.
* `Exclusion.coversText`: whether a path is left out, told by texts alone.
-/

namespace SyntaxLint

/-- How a part is written. -/
def Part.spelling : Part → String
  | root => "/"
  | here => "."
  | up => ".."
  | name s => s

namespace Path

/-- The text of segments; the root is a slash behind nothing. -/
def spelled : List (List Char) → String
  | [[]] => "/"
  | ss => "/".intercalate (ss.map String.ofList)

/-- A path with a text behind it, after one slash.  A text from the root takes the place of the
path. -/
def push (p : Path) (text : String) : Path :=
  if text.toList.head? = some '/' then ⟨text⟩
  else if p.text = "" then ⟨text⟩
  else ⟨p.text ++ (if p.text.toList.getLast? = some '/' then "" else "/") ++ text⟩

/-- A path without its last part.  The root stays. -/
def pop (p : Path) : Path :=
  match segments p.text.toList with
  | [] => p
  | s :: ss =>
    match ss.rdropWhile isIdle with
    | [] => if s = [] then p else ⟨""⟩
    | kept => ⟨spelled (s :: kept.dropLast.rdropWhile isIdle)⟩

/-- Whether a path begins with two slashes and not with three. -/
def isDoubled (p : Path) : Bool :=
  match p.text.toList with
  | '/' :: '/' :: rest => rest.head? != some '/'
  | _ => false

/-- A path with parts behind it. -/
def extend (p : Path) (parts : List Part) : Path :=
  parts.foldl (fun p part => p.push part.spelling) p

/-- A path from the root, as seen from the directory `here`.  Two slashes at the beginning and one
at the end are kept. -/
def absolute? (here : Place) (p : Path) : Option Path :=
  if p.text = "" then none
  else
    let whole :=
      if p.isRooted then
        if p.isDoubled then extend ⟨"//"⟩ p.parts.tail else extend ⟨""⟩ p.parts
      else
        here.path.extend (if p.parts.head? = some .here then p.parts.tail else p.parts)
    some (if p.text.toList.getLast? = some '/' then whole.push "" else whole)

/-- A path and one more part of another. -/
def fold (p : Path) : Part → Path
  | .here => p
  | .up => p.pop
  | part => p.push part.spelling

/-- A path without dots; the disk is not looked at. -/
def normal (p : Path) : Path := p.parts.foldl fold ⟨""⟩

/-- The segments that go on behind given parts. -/
def behind? : List Part → List (List Char) → Option (List (List Char))
  | [], ss => some ss
  | _ :: _, [] => none
  | part :: parts, s :: ss =>
    match part? s with
    | none => behind? (part :: parts) ss
    | some found => if found = part then behind? parts ss else none

/-- What a path goes on with behind all the parts of `base`. -/
def relative? (base p : Path) : Option Path :=
  match segments p.text.toList, base.parts with
  | [], _ => none
  | s :: ss, [] => some (if p.text = "" then p else ⟨spelled (s :: ss.rdropWhile isIdle)⟩)
  | s :: ss, part :: parts =>
    if firstPart? s ss = some part then
      (behind? parts ss).map fun kept =>
        ⟨"/".intercalate (((kept.dropWhile isIdle).rdropWhile isIdle).map String.ofList)⟩
    else none

end Path

/-- Whether a path seen from the directory `here` is left out: as it is written, or without its dot,
or for what its normal form goes on with behind `root`, which is normal. -/
def Exclusion.coversText (x : Exclusion) (root : Option Path) (here : Place) (p : Path) : Bool :=
  x.accepts p.text || (Path.relative? ⟨"./"⟩ p).any (x.accepts ·.text) ||
    (root.bind fun top => (p.absolute? here).bind fun whole => top.relative? whole.normal).any
      (x.accepts ·.text)

end SyntaxLint
