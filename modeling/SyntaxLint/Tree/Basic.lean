import SyntaxLint.Tree.Content
import SyntaxLint.Tree.Error

/-!
# Trees

A tree is a root node with the text before and after it.  Every node keeps the identity it was
built with; an identity is never given out twice, so one whose node was removed stays dead.

* `Tree.source`: the whole text, of which every node covers a part.
* `Tree.nodes`, `Tree.node?`: the live nodes, and the one of a given identity.
-/

namespace SyntaxLint

/-- The identity of a tree; a copy of a tree has one of its own. -/
abbrev TreeId := Nat

/-- A syntax tree over its source. -/
structure Tree where
  identity : TreeId
  /-- the text before the root -/
  before : String
  root : Node
  /-- the text after the root -/
  after : String
  deriving DecidableEq, Repr, Inhabited

namespace Tree

/-- The root as the only node of a run. -/
def content (t : Tree) : Content := .node t.before t.root.id t.root.kind t.root.body (.tail t.after)

/-- The text of the tree. -/
def source (t : Tree) : String := t.content.text

/-- The root where it stands. -/
def top (t : Tree) : Placed := ⟨t.root, t.before.utf8ByteSize, none⟩

/-- The language of the root. -/
def language (t : Tree) : Language := t.root.kind.language

/-- The live nodes, each before those below it. -/
def nodes (t : Tree) : List Placed := t.content.preorder 0 none

/-- The live node of a given identity. -/
def node? (t : Tree) (id : NodeId) : Option Placed := t.nodes.find? (·.id == id)

/-- The number of live nodes. -/
def size (t : Tree) : Nat := t.content.size

/-- The nodes above a node, nearest first. -/
def ancestors (t : Tree) (id : NodeId) : List Placed := (t.content.above id 0 none).getD []

/-- The node a node is a child of. -/
def parent? (t : Tree) (n : Placed) : Option Placed := n.parent.bind t.node?

/-- The children of the node that a node is a child of; none for the root. -/
def siblings (t : Tree) (n : Placed) : List Placed :=
  match t.parent? n with
  | some p => p.children
  | none => []

/-- The place of a node among its siblings. -/
def index? (t : Tree) (n : Placed) : Option Nat := (t.siblings n).findIdx? (·.id == n.id)

/-- The sibling that follows a node. -/
def next? (t : Tree) (n : Placed) : Option Placed :=
  (t.index? n).bind fun i => (t.siblings n)[i + 1]?

/-- The sibling that a node follows. -/
def previous? (t : Tree) (n : Placed) : Option Placed :=
  match t.index? n with
  | some (i + 1) => (t.siblings n)[i]?
  | _ => none

/-- Where a node begins and ends in lines and columns. -/
def location (t : Tree) (s : Span) : Location := Location.of t.source s

/-- The deepest node that covers an offset: the root at least, up to the root's end. -/
def covering? (t : Tree) (offset : Nat) : Option Placed :=
  if offset < t.top.span.start || t.top.span.stop < offset then none
  else some ((Placed.deepest offset t.top.start (some t.root.id) t.root.body).getD t.top)

/-- A copy under an identity of its own. -/
def copy (t : Tree) (identity : TreeId) : Tree := { t with identity }

/-- The tree with the content of one node changed by `f`. -/
def alter (t : Tree) (target : NodeId) (f : Content → Content) : Tree :=
  if t.root.id = target then { t with root := { t.root with body := f t.root.body } }
  else { t with root := { t.root with body := t.root.body.alter target f } }

theorem source_eq (t : Tree) : t.source = t.before ++ t.root.body.text ++ t.after := by
  simp [source, content]

/-- The root is the first of the live nodes. -/
theorem nodes_eq (t : Tree) : t.nodes = t.top.preorder := by
  simp [nodes, content, Content.preorder, top, Placed.preorder, Placed.descendants]

/-- There are as many live nodes as pre-order lists. -/
theorem size_eq_length_nodes (t : Tree) : t.size = t.nodes.length := by
  have h := congrArg List.length (Content.ids_preorder t.content 0 none)
  rw [List.length_map, Content.length_ids] at h
  exact h.symm

end Tree

end SyntaxLint
