import SyntaxLint.Tree.Basic

/-!
# Trees — edits

The two edits: the text of a leaf is replaced, and a run of children is removed with the text it
covers.  Each is refused, with the tree as it was, unless the nodes named are alive and related as
the edit needs.  A text is refused, too, that would make the source longer than offsets of 32 bits
reach.

* `Tree.replaceText`: gives the new span of the leaf.
* `Tree.removeRange`: gives the span removed.
* `Tree.tryEdit`: either edit, or the tree as it was.
-/

namespace SyntaxLint

namespace Tree

/-- The live node of an identity, or the refusal to edit a dead one. -/
def live (t : Tree) (id : NodeId) : Except TreeError Placed :=
  match t.node? id with
  | some n => .ok n
  | none => .error .unknownNode

/-- The length of the source when the text of a node becomes `text`. -/
def lengthWith (t : Tree) (n : Placed) (text : String) : Nat :=
  t.content.width - n.body.width + text.utf8ByteSize

/-- Replaces the text of a leaf.  The second part is the new span of the leaf. -/
def replaceText (t : Tree) (id : NodeId) (text : String) : Except TreeError (Tree × Span) := do
  let n ← t.live id
  if !n.isLeaf then throw (.invalidEdit (.notLeaf n.kind n.span))
  else if Nat.pow 2 32 ≤ t.lengthWith n text then throw (.invalidEdit .tooLong)
  else return (t.alter id fun _ => .tail text, ⟨n.start, n.start + text.utf8ByteSize⟩)

/-- The place of a child among the children of a node, or the refusal. -/
def childIndex (parent : Placed) (id : NodeId) : Except TreeError Nat :=
  match parent.children.findIdx? (·.id == id) with
  | some i => .ok i
  | none => .error (.invalidEdit (.notChild parent.kind parent.span))

/-- Removes the children of a node from `first` to `last` and the text between them.  The second
part is the span removed. -/
def removeRange (t : Tree) (parent first last : NodeId) : Except TreeError (Tree × Span) := do
  let p ← t.live parent
  let a ← t.live first
  let b ← t.live last
  let i ← childIndex p first
  let j ← childIndex p last
  if j < i then throw (.invalidEdit .reversed)
  else return (t.alter parent (·.cut first last), ⟨a.span.start, b.span.stop⟩)

end Tree

/-- An edit of a tree. -/
inductive Edit where
  | replace (id : NodeId) (text : String)
  | remove (parent first last : NodeId)
  deriving DecidableEq, Repr, Inhabited

/-- Makes an edit; the second part is the span it is told with. -/
def Tree.edit (t : Tree) : Edit → Except TreeError (Tree × Span)
  | .replace id text => t.replaceText id text
  | .remove parent first last => t.removeRange parent first last

/-- What became of an edit, and the tree after it. -/
structure Edited where
  result : Except TreeError Span
  tree : Tree

/-- Makes an edit, or leaves the tree as it is. -/
def Tree.tryEdit (t : Tree) (e : Edit) : Edited :=
  match t.edit e with
  | .ok (t, s) => ⟨.ok s, t⟩
  | .error e => ⟨.error e, t⟩

end SyntaxLint
