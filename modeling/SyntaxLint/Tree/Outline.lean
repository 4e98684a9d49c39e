import SyntaxLint.Tree.Basic
import SyntaxLint.Text.Bytes

/-!
# Trees — outlines

An outline is a tree without text: each node is a kind with the range it covers.  Together with a
source it is the form in which trees are stored and handed over.  Every tree has an outline; an
outline is that of a tree over a source when its ranges are nested and ordered and begin and end
between characters.

* `Outline.check`: the first fault of the ranges of an outline, or none.
* `Tree.ofOutline`, `Tree.outline`: the tree of an outline, and the outline of a tree.
-/

namespace SyntaxLint

/-- A run of sibling nodes, each with its range and its children. -/
inductive Outline where
  | done
  | node (kind : Kind) (span : Span) (children : Outline) (next : Outline)
  deriving DecidableEq, Repr, Inhabited

/-- One node of an outline. -/
structure OutlineNode where
  kind : Kind
  span : Span
  children : Outline
  deriving DecidableEq, Repr, Inhabited

/-- A source with the outline of a tree over it. -/
structure Document where
  source : String
  root : OutlineNode
  deriving DecidableEq, Repr, Inhabited

namespace Outline

/-- The run of the given nodes. -/
def ofNodes : List OutlineNode → Outline
  | [] => .done
  | n :: ns => .node n.kind n.span n.children (ofNodes ns)

/-- The nodes of a run. -/
def nodes : Outline → List OutlineNode
  | .done => []
  | .node kind span children next => ⟨kind, span, children⟩ :: next.nodes

/-- The run with its ranges as they are kept in 32 bits. -/
def wrapped : Outline → Outline
  | .done => .done
  | .node kind span children next => .node kind span.wrapped children.wrapped next.wrapped

/-- Refuses a range that is reversed, ends past the source or cuts a character. -/
def checkRange (source : String) (kind : Kind) (s : Span) : Except TreeError Unit :=
  if s.stop < s.start then .error (.invalidRange kind s .reversed)
  else if source.utf8ByteSize < s.stop then
    .error (.invalidRange kind s (.pastEnd source.utf8ByteSize))
  else if Text.endsCharacter source s.start && Text.endsCharacter source s.stop then .ok ()
  else .error (.invalidRange kind s .splitsCharacter)

/-- Refuses siblings below a node of kind `parent` that ends at `stop`, unless each begins at or
after the end of the one before, the first at or after `cursor`, and each ends by `stop`. -/
def checkOrder (parent : Kind) (stop : Nat) (cursor : Nat) : Outline → Except TreeError Unit
  | .done => .ok ()
  | .node kind s _ next =>
    if s.start < cursor then .error (.invalidRange kind s .overlaps)
    else if stop < s.stop then .error (.invalidRange kind s (.exceedsParent parent stop))
    else next.checkOrder parent stop s.stop

/-- Checks the ranges of a run: of siblings the last first, of each the node before its
children. -/
def check (source : String) : Outline → Except TreeError Unit
  | .done => .ok ()
  | .node kind s children next => do
    next.check source
    checkRange source kind s
    children.checkOrder kind s.stop s.start
    children.check source

end Outline

/-- The node with its ranges as they are kept in 32 bits. -/
def OutlineNode.wrapped (n : OutlineNode) : OutlineNode :=
  ⟨n.kind, n.span.wrapped, n.children.wrapped⟩

/-- Checks the ranges of a node and of everything below it. -/
def OutlineNode.check (source : String) (n : OutlineNode) : Except TreeError Unit :=
  (Outline.node n.kind n.span n.children .done).check source

namespace Content

/-- The outline of a run that begins at `start`. -/
def outline (start : Nat) : Content → Outline
  | .tail _ => .done
  | .node gap _ kind body next =>
    .node kind ⟨start + gap.utf8ByteSize, start + gap.utf8ByteSize + body.width⟩
      (body.outline (start + gap.utf8ByteSize))
      (next.outline (start + gap.utf8ByteSize + body.width))

/-- What is read of a run: its content, the text after it and the next free identity. -/
structure Read where
  content : Content
  rest : List Char
  free : NodeId

/-- Lays an outline over a text.  The text `cs` begins at `pos` and the run ends at `stop`;
identities are given out from `free` on, to children before their parent. -/
def ofOutline (pos stop : Nat) (cs : List Char) (free : NodeId) : Outline → Read
  | .done =>
    let cut := Text.splitBytes (stop - pos) cs
    ⟨.tail (String.ofList cut.1), cut.2, free⟩
  | .node kind s children next =>
    let cut := Text.splitBytes (s.start - pos) cs
    let body := ofOutline s.start s.stop cut.2 free children
    let rest := ofOutline s.stop stop body.rest (body.free + 1) next
    ⟨.node (String.ofList cut.1) body.free kind body.content rest.content, rest.rest, rest.free⟩

end Content

namespace Tree

/-- The outline of a tree. -/
def outline (t : Tree) : OutlineNode :=
  ⟨t.root.kind, t.top.span, t.root.body.outline t.top.span.start⟩

/-- The stored form of a tree. -/
def document (t : Tree) : Document := ⟨t.source, t.outline⟩

/-- The tree of a checked outline over a source. -/
def ofOutline (identity : TreeId) (source : String) (n : OutlineNode) : Except TreeError Tree := do
  n.check source
  let cut := Text.splitBytes n.span.start source.toList
  let body := Content.ofOutline n.span.start n.span.stop cut.2 0 n.children
  return {
    identity
    before := String.ofList cut.1
    root := ⟨body.free, n.kind, body.content⟩
    after := String.ofList body.rest }

/-- Whether the ranges of the tree are those of a tree over its source. -/
def validate (t : Tree) : Except TreeError Unit := t.outline.check t.source

end Tree

/-- The tree of a stored document. -/
def Document.tree (d : Document) (identity : TreeId) : Except TreeError Tree :=
  Tree.ofOutline identity d.source d.root

end SyntaxLint
