import SyntaxLint.Tree.Arena
import SyntaxLint.Tree.Encoding

/-!
# Trees — getting about in slots

From the slot of a node one gets to others by the links there are.  Pre-order is a stack: the node
on top is taken off and its children are put in its place.  The nodes above one are a chain of
parents, and the place of a node is looked up in the list of its parent.  The node at an offset is
looked for from the root down, and listings are written from the root down too.

* `Arena.Reaches`: the nodes that lists of children lead to.
* `Arena.Yields`, `Arena.Climbs`: the stack and the chain, as far as they go.
* `Arena.index?`, `Arena.next?`, `Arena.previous?`: the place of a node, and those beside it.
* `Arena.Lands`: the node at an offset.
* `Arena.listing`: the listing of a node.
-/

namespace SyntaxLint

/-- What is written of a slot with a text and with children that are written as `below`: the text if
it is a token without children, and the children if not. -/
def Slot.fields (s : Slot) (text : String) (below : List Json) : List (String × Json) :=
  [("type", s.kind.toJson), ("range", s.span.toPair),
    if s.kind.isToken && s.children.isEmpty then ("value", .string text)
    else ("children", .array below)]

namespace Arena

/-! ### Live nodes -/

/-- How many nodes are alive. -/
def nodeCount (a : Arena) : Nat := a.slots.countP (·.alive)

/-- The nodes that lists of children lead to. -/
inductive Reaches (a : Arena) (root : NodeId) : NodeId → Prop where
  | root : Reaches a root root
  | child {id child : NodeId} (h : Reaches a root id) (mem : child ∈ (a.slot id).children) :
      Reaches a root child

/-! ### Iteration -/

/-- One step of pre-order: the node on top of the stack, and the stack with its children, the first
on top, in its place. -/
def advance (a : Arena) : List NodeId → Option (NodeId × List NodeId)
  | [] => none
  | id :: stack => some (id, (a.slot id).children ++ stack)

/-- Pre-order from a stack comes to an end, and these are the nodes that were taken off. -/
inductive Yields (a : Arena) : List NodeId → List NodeId → Prop where
  | done {stack : List NodeId} (step : a.advance stack = none) : Yields a stack []
  | more {stack rest ids : List NodeId} {id : NodeId} (step : a.advance stack = some (id, rest))
      (h : Yields a rest ids) : Yields a stack (id :: ids)

/-- The chain of parents from a node comes to an end, and these are the nodes on it. -/
inductive Climbs (a : Arena) : NodeId → List NodeId → Prop where
  | top {id : NodeId} (step : (a.slot id).parent = none) : Climbs a id []
  | up {id parent : NodeId} {ids : List NodeId} (step : (a.slot id).parent = some parent)
      (h : Climbs a parent ids) : Climbs a id (parent :: ids)

/-- The place of a node among the children of its parent. -/
def index? (a : Arena) (id : NodeId) : Option Nat :=
  (a.slot id).parent.bind fun p => (a.slot p).children.idxOf? id

/-- The sibling behind a node. -/
def next? (a : Arena) (id : NodeId) : Option NodeId :=
  (a.slot id).parent.bind fun p => (a.index? id).bind fun i => (a.slot p).children[i + 1]?

/-- The sibling before a node. -/
def previous? (a : Arena) (id : NodeId) : Option NodeId :=
  (a.slot id).parent.bind fun p => (a.index? id).bind fun i =>
    if i = 0 then none else (a.slot p).children[i - 1]?

/-- Whether a slot is of a kind. -/
def isOf (a : Arena) (kind : Kind) (id : NodeId) : Bool := (a.slot id).kind == kind

/-! ### Offsets -/

/-- The descent over slots: from a node to the first of its children that contains the offset, and
so on, as long as there is one. -/
inductive Lands (a : Arena) (offset : Nat) : NodeId → NodeId → Prop where
  | here {id : NodeId}
      (step : (a.slot id).children.find? (fun j => (a.slot j).span.contains offset) = none) :
      Lands a offset id id
  | down {id child last : NodeId}
      (step : (a.slot id).children.find? (fun j => (a.slot j).span.contains offset) = some child)
      (h : Lands a offset child last) : Lands a offset id last

/-! ### Listings -/

/-- The text of the source at a span. -/
def textAt (a : Arena) (s : Span) : String := Text.slice a.source s.start s.stop

/-- The listing of some siblings.  No node is below itself or behind itself, so there are no more
nodes below and behind one than slots. -/
def listings (a : Arena) : Nat → List NodeId → List Json
  | _, [] => []
  | 0, _ :: _ => []
  | fuel + 1, id :: ids =>
    let s := a.slot id
    .object (s.fields (a.textAt s.span) (a.listings fuel s.children)) :: a.listings fuel ids

/-- The listing of a node. -/
def listing (a : Arena) (root : NodeId) : Json :=
  let s := a.slot root
  .object (s.fields (a.textAt s.span) (a.listings a.slots.size s.children))

end Arena

end SyntaxLint
