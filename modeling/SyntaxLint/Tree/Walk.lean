import SyntaxLint.Tree.Basic

/-!
# Trees — walks

A visitor answers to what a walk meets: it enters a node, is told what the node is, and leaves it.
A token is a leaf of every walk.  A production of a language that the visitor handles goes to the
callback for its kind, if it has one; every other production goes to the general callback.  These
two say whether the walk goes on below the node.  Any callback can end the walk.

* `Visitor.visit`: what happens at one node, given what happens below it.
* `Placed.walk`: the walk of a node and of all nodes below it.
-/

namespace SyntaxLint

/-- Whether a walk goes on. -/
inductive Flow where
  | go
  | stop
  deriving DecidableEq, Repr, Inhabited

/-- How a walk goes on at a production: below it, beside it, or not at all. -/
inductive Turn where
  | descend
  | skip
  | stop
  deriving DecidableEq, Repr, Inhabited

/-- Callbacks of a walk that carries a state. -/
structure Visitor (σ : Type) where
  handles : Language → Bool
  enter : Placed → σ → σ × Flow
  exit : Placed → σ → σ × Flow
  token : Placed → σ → σ × Flow
  other : Placed → σ → σ × Turn
  production : Kind → Option (Placed → σ → σ × Turn)

namespace Visitor

variable {σ : Type}

/-- The visitor that walks everything and does nothing. -/
def silent : Visitor σ where
  handles _ := true
  enter _ s := (s, .go)
  exit _ s := (s, .go)
  token _ s := (s, .go)
  other _ s := (s, .descend)
  production _ := none

/-- The callback for a production. -/
def callback (v : Visitor σ) (kind : Kind) : Placed → σ → σ × Turn :=
  if v.handles kind.language then (v.production kind).getD v.other else v.other

/-- Tells the visitor what a node is and goes on below it if told to. -/
def dispatch (v : Visitor σ) (n : Placed) (below : σ → σ × Flow) (s : σ) : σ × Flow :=
  if n.kind.isToken then v.token n s
  else
    match v.callback n.kind n s with
    | (s, .descend) => below s
    | (s, .skip) => (s, .go)
    | (s, .stop) => (s, .stop)

/-- Visits one node, where `below` walks its children. -/
def visit (v : Visitor σ) (n : Placed) (below : σ → σ × Flow) (s : σ) : σ × Flow :=
  match v.enter n s with
  | (s, .stop) => (s, .stop)
  | (s, .go) =>
    match v.dispatch n below s with
    | (s, .stop) => (s, .stop)
    | (s, .go) => v.exit n s

end Visitor

/-- Walks the nodes of a run that begins at `start` below `parent`, in order. -/
def Content.walk {σ : Type} (v : Visitor σ) (start : Nat) (parent : Option NodeId) :
    Content → σ → σ × Flow
  | .tail _, s => (s, .go)
  | .node gap id kind body next, s =>
    let here : Placed := ⟨⟨id, kind, body⟩, start + gap.utf8ByteSize, parent⟩
    match v.visit here (body.walk v here.start (some id)) s with
    | (s, .stop) => (s, .stop)
    | (s, .go) => next.walk v here.span.stop parent s

/-- Walks a node and everything below it. -/
def Placed.walk {σ : Type} (n : Placed) (v : Visitor σ) (s : σ) : σ × Flow :=
  v.visit n (n.body.walk v n.start (some n.id)) s

end SyntaxLint
