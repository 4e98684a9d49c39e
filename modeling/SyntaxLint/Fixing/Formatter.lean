import SyntaxLint.Tree.Edit

/-!
# Fixing — formatters

A formatter tidies a range of a tree after an edit.  It may be handed a range that is slightly off,
so it clamps rather than fails, and tells which of its own edits were refused.

* `Formatter.whitespace`: blanks without a line break become one space.
-/

namespace SyntaxLint

/-- A tree after formatting, and the edits that were refused. -/
structure Formatted where
  tree : Tree
  refused : List TreeError
  deriving DecidableEq, Repr

/-- What is done to a range of a tree. -/
abbrev Formatter := Tree → Span → Formatted

namespace Formatter

/-- Leaves everything as it is. -/
def idle : Formatter := fun t _ => ⟨t, []⟩

/-- Whether a node is white space on one line inside a range and is not one space. -/
def isRagged (range : Span) (n : Placed) : Bool :=
  n.kind == .whitespace && range.encloses n.span && n.text != " " &&
    n.text.toList.all fun c => c != '\n' && c != '\r'

/-- Makes one token a space. -/
def toSpace (f : Formatted) (id : NodeId) : Formatted :=
  match f.tree.replaceText id " " with
  | .ok (t, _) => ⟨t, f.refused⟩
  | .error e => ⟨f.tree, f.refused ++ [e]⟩

/-- The tokens that `whitespace` changes.  The length of the source is taken in 32 bits. -/
def targets (t : Tree) (range : Span) : List NodeId :=
  (t.nodes.filter (isRagged (range.clamp (Span.word t.source.utf8ByteSize)))).map (·.id)

/-- Makes every run of white space inside the range one space, unless it breaks a line. -/
def whitespace : Formatter := fun t range => (targets t range).foldl toSpace ⟨t, []⟩

end Formatter

end SyntaxLint
