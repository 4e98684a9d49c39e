import SyntaxLint.Kind
import SyntaxLint.Span

/-!
# Trees — content

A syntax tree keeps its text in place.  The content of a node is a run of child nodes with the
text before the first, between any two and after the last; a node without children has text
alone.  Spans are not stored: they are read off the lengths of the texts, so they are nested,
ordered and inside the source whatever is done to the tree.

* `Content.text`, `Content.width_eq`: the text of a run and its length.
* `Content.ids_preorder`: the nodes below a run, each with where it stands.
-/

namespace SyntaxLint

/-- The identity of a node within its tree. -/
abbrev NodeId := Nat

/-- A run of sibling nodes: text, a node, text, a node, … and the text at the end. -/
inductive Content where
  | tail (text : String)
  | node (gap : String) (id : NodeId) (kind : Kind) (body : Content) (next : Content)
  deriving DecidableEq, Repr, Inhabited

/-- A node with the content it covers. -/
structure Node where
  id : NodeId
  kind : Kind
  body : Content
  deriving DecidableEq, Repr, Inhabited

/-- A node where it stands: the offset it begins at and the node it is a child of. -/
structure Placed extends Node where
  start : Nat
  parent : Option NodeId
  deriving DecidableEq, Repr, Inhabited

namespace Content

/-- A text with the text of a run behind it. -/
def appendTo (head : String) : Content → String
  | .tail s => head ++ s
  | .node gap _ _ body next => next.appendTo (body.appendTo (head ++ gap))

/-- The whole text of a run. -/
def text (c : Content) : String := c.appendTo ""

/-- The length of the text of a run in bytes. -/
def width : Content → Nat
  | .tail s => s.utf8ByteSize
  | .node gap _ _ body next => gap.utf8ByteSize + body.width + next.width

/-- Whether the run has no node. -/
def isLeaf : Content → Bool
  | .tail _ => true
  | .node .. => false

/-- The identities of all nodes of a run, each before those below it. -/
def ids : Content → List NodeId
  | .tail _ => []
  | .node _ id _ body next => id :: body.ids ++ next.ids

/-- The number of nodes of a run, at any depth. -/
def size : Content → Nat
  | .tail _ => 0
  | .node _ _ _ body next => 1 + body.size + next.size

/-- The nodes of a run that begins at `start` below `parent`, without those below them. -/
def siblings (start : Nat) (parent : Option NodeId) : Content → List Placed
  | .tail _ => []
  | .node gap id kind body next =>
    ⟨⟨id, kind, body⟩, start + gap.utf8ByteSize, parent⟩ ::
      next.siblings (start + gap.utf8ByteSize + body.width) parent

/-- All nodes of a run that begins at `start` below `parent`, each before those below it. -/
def preorder (start : Nat) (parent : Option NodeId) : Content → List Placed
  | .tail _ => []
  | .node gap id kind body next =>
    ⟨⟨id, kind, body⟩, start + gap.utf8ByteSize, parent⟩ ::
      body.preorder (start + gap.utf8ByteSize) (some id) ++
      next.preorder (start + gap.utf8ByteSize + body.width) parent

/-- The nodes of a run above the node `target`, nearest first. -/
def above (target : NodeId) (start : Nat) (parent : Option NodeId) : Content → Option (List Placed)
  | .tail _ => none
  | .node gap id kind body next =>
    if id = target then some []
    else match body.above target (start + gap.utf8ByteSize) (some id) with
      | some path => some (path ++ [⟨⟨id, kind, body⟩, start + gap.utf8ByteSize, parent⟩])
      | none => next.above target (start + gap.utf8ByteSize + body.width) parent

/-- The run with the content of the node `target` changed by `f`. -/
def alter (target : NodeId) (f : Content → Content) : Content → Content
  | .tail s => .tail s
  | .node gap id kind body next =>
    if id = target then .node gap id kind (f body) next
    else .node gap id kind (body.alter target f) (next.alter target f)

/-- The run with `gap` in front of its text. -/
def prepend (gap : String) : Content → Content
  | .tail s => .tail (gap ++ s)
  | .node g id kind body next => .node (gap ++ g) id kind body next

/-- What follows the node `last` of a run. -/
def after (last : NodeId) : Content → Content
  | .tail s => .tail s
  | .node _ id _ _ next => if id = last then next else next.after last

/-- The run without its nodes from `first` to `last` and the text between them. -/
def cut (first last : NodeId) : Content → Content
  | .tail s => .tail s
  | .node gap id kind body next =>
    if id = first then ((Content.node gap id kind body next).after last).prepend gap
    else .node gap id kind body (next.cut first last)

/-- The run of the given nodes without text between them. -/
def ofNodes : List Node → Content
  | [] => .tail ""
  | n :: ns => .node "" n.id n.kind n.body (ofNodes ns)

theorem appendTo_eq (head : String) (c : Content) : c.appendTo head = head ++ c.text := by
  induction c generalizing head with
  | tail s => simp [appendTo, text]
  | node gap id kind body next ihb ihn =>
    rw [text, appendTo, appendTo, ihb, ihn, ihb ("" ++ gap), ihn ("" ++ gap ++ body.text)]
    simp [String.append_assoc]

@[simp] theorem text_tail (s : String) : (tail s).text = s := by simp [text, appendTo]

@[simp] theorem text_node (gap : String) (id : NodeId) (kind : Kind) (body next : Content) :
    (node gap id kind body next).text = gap ++ body.text ++ next.text := by
  rw [text, appendTo, appendTo_eq, appendTo_eq]
  simp

/-- The length of a run is that of its text. -/
theorem width_eq (c : Content) : c.width = c.text.utf8ByteSize := by
  induction c with
  | tail s => simp [width]
  | node gap id kind body next ihb ihn =>
    simp [width, ihb, ihn, String.utf8ByteSize_append]

@[simp] theorem text_prepend (gap : String) (c : Content) :
    (c.prepend gap).text = gap ++ c.text := by
  cases c <;> simp [prepend, String.append_assoc]

/-- A run has as many nodes as identities. -/
theorem length_ids (c : Content) : c.ids.length = c.size := by
  induction c with
  | tail s => rfl
  | node gap id kind body next ihb ihn => simp [ids, size, ihb, ihn]; omega

/-- Pre-order lists the identities of a run. -/
theorem ids_preorder (c : Content) (start : Nat) (parent : Option NodeId) :
    (c.preorder start parent).map (·.id) = c.ids := by
  induction c generalizing start parent with
  | tail s => rfl
  | node gap id kind body next ihb ihn => simp [preorder, ids, ihb, ihn]

end Content

namespace Placed

/-- The bytes a node covers. -/
def span (n : Placed) : Span := ⟨n.start, n.start + n.body.width⟩

/-- The text a node covers. -/
def text (n : Placed) : String := n.body.text

/-- Whether a node has no children. -/
def isLeaf (n : Placed) : Bool := n.body.isLeaf

/-- The children of a node. -/
def children (n : Placed) : List Placed := n.body.siblings n.start (some n.id)

/-- The nodes below a node, each before those below it. -/
def descendants (n : Placed) : List Placed := n.body.preorder n.start (some n.id)

/-- A node and all nodes below it, each before those below it. -/
def preorder (n : Placed) : List Placed := n :: n.descendants

/-- The first child of a kind. -/
def child? (n : Placed) (kind : Kind) : Option Placed := n.children.find? (·.kind == kind)

/-- The children of a kind. -/
def childrenOf (n : Placed) (kind : Kind) : List Placed := n.children.filter (·.kind == kind)

/-- The descendants of a kind. -/
def descendantsOf (n : Placed) (kind : Kind) : List Placed :=
  n.descendants.filter (·.kind == kind)

/-- The first descendant of a kind. -/
def descendant? (n : Placed) (kind : Kind) : Option Placed :=
  n.descendants.find? (·.kind == kind)

/-- A node in one line: its kind and its span. -/
def label (n : Placed) : String :=
  n.kind.name ++ "@" ++ toString n.span.start ++ ".." ++ toString n.span.stop

/-- The deepest node of a run whose span contains `offset`, if any does. -/
def deepest (offset : Nat) (start : Nat) (parent : Option NodeId) : Content → Option Placed
  | .tail _ => none
  | .node gap id kind body next =>
    let here : Placed := ⟨⟨id, kind, body⟩, start + gap.utf8ByteSize, parent⟩
    if here.span.contains offset then
      some ((deepest offset here.start (some id) body).getD here)
    else deepest offset here.span.stop parent next

end Placed

end SyntaxLint
