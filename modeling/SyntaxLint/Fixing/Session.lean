import SyntaxLint.Fixing.Formatter

/-!
# Fixing — edit sessions

A session makes edits around a target node and formats once at its end, whether or not an edit was
refused: the span that the target then has, or, if the target is gone, the one it had when the
session began, cut down to the source; the length of the source is taken in 32 bits there.

* `Session.run`: the edits of a session, one after the other, and the formatting.
-/

namespace SyntaxLint

/-- How a session ended. -/
structure Closing where
  /-- the range that was formatted -/
  range : Span
  formatted : Formatted

/-- What a session did. -/
structure Session extends Closing where
  edits : List Edited

namespace Session

/-- The edits of a session in order, each on the tree that the one before left. -/
def trace (t : Tree) : List Edit → List Edited
  | [] => []
  | e :: more => t.tryEdit e :: trace (t.tryEdit e).tree more

/-- The tree after the edits of a session. -/
def edited (t : Tree) : List Edit → Tree
  | [] => t
  | e :: more => edited (t.tryEdit e).tree more

/-- The span that a target has in a tree, or that of the root. -/
def spanOf (t : Tree) (target : NodeId) : Span := ((t.node? target).getD t.top).span

/-- The range to format when edits around a target have led from `before` to `after`. -/
def rangeOf (before after : Tree) (target : NodeId) : Span :=
  match after.node? target with
  | some n => n.span
  | none => (spanOf before target).clamp (Span.word after.source.utf8ByteSize)

/-- Ends a session around a target, in which edits have led from `before` to `after`. -/
def close (format : Formatter) (before after : Tree) (target : NodeId) : Closing :=
  let range := rangeOf before after target
  ⟨range, format after range⟩

/-- Makes edits around a target and formats. -/
def run (format : Formatter) (t : Tree) (target : NodeId) (es : List Edit) : Session :=
  { close format t (edited t es) target with edits := trace t es }

end Session

end SyntaxLint
