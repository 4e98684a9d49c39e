import SyntaxLint.Tree.Arena

/-!
# Fixing — edit sessions in place

A session has a stored tree and a formatter to itself until it ends.  Edits, made or refused, do not
reach the formatter; the end of the session calls it, once, with the tree that the edits have left
and the range where the target is by then, or what is left of the range from before.

* `Arena.Opened`: a session that is open.
* `Arena.session`: a session from its opening to its end.
-/

namespace SyntaxLint

namespace Arena

variable {σ : Type}

/-- A formatter of stored trees that keeps a state of its own. -/
abbrev Formatter (σ : Type) := Arena → Span → σ → Arena × σ

/-- A formatter that writes down its calls too. -/
def Formatter.logged (format : Formatter σ) : Formatter (σ × List (Arena × Span)) :=
  fun a range s => ((format a range s.1).1, (format a range s.1).2, s.2 ++ [(a, range)])

/-- A session that is open: the tree, the state of the formatter, the node that the session is about
and the span to format if that node is gone. -/
structure Opened (σ : Type) where
  arena : Arena
  state : σ
  target : NodeId
  fallback : Span

namespace Opened

/-- Opens a session about a node, or about one that is not there. -/
def start (a : Arena) (root target : NodeId) (s : σ) : Opened σ where
  arena := a
  state := s
  target := target
  fallback :=
    match a.live target with
    | .ok n => n.span
    | .error _ => (a.slot root).span

/-- Makes edits one after the other, whether or not one is refused. -/
def run : Opened σ → List Edit → List (Except TreeError Span) × Opened σ
  | o, [] => ([], o)
  | o, e :: more =>
    let edited := o.arena.edit e
    let rest := run { o with arena := edited.arena } more
    (edited.result :: rest.1, rest.2)

/-- The span to format. -/
def range (o : Opened σ) : Span :=
  match o.arena.live o.target with
  | .ok n => n.span
  | .error _ => o.fallback.clamp (Span.word o.arena.source.utf8ByteSize)

/-- Ends a session. -/
def close (format : Formatter σ) (o : Opened σ) : Arena × σ := format o.arena o.range o.state

end Opened

/-- A session from its opening to its end: what its edits gave, and what the formatter left. -/
def session (format : Formatter σ) (a : Arena) (root target : NodeId) (es : List Edit) (s : σ) :
    List (Except TreeError Span) × Arena × σ :=
  let done := (Opened.start a root target s).run es
  (done.1, done.2.close format)

end Arena

end SyntaxLint
