import SyntaxLint.Tree.Arena
import SyntaxLint.Tree.Outline

/-!
# Trees — loading slots

An outline is loaded in three passes.  Its nodes are stored, each behind those below it; then every
slot that is listed as a child is told its parent; and then the slots are checked from a stack, so
that the range of a node is looked at when the node is taken off, long after its end was the place
from which the next sibling had to begin.

* `Arena.load`, `Arena.outline`: an outline that is loaded, and the one that is read back.
* `Arena.validate`: the check of the slots.
-/

namespace SyntaxLint

/-- A slot that is told its parent. -/
def Slot.adopted (owner : NodeId) (s : Slot) : Slot := { s with parent := some owner }

namespace Arena

/-- What can be wrong with slots: what is wrong with a tree, or links that are not those of one. -/
inductive Fault where
  | tree (e : TreeError)
  | twoParents (kind : Kind) (span : Span)
  | otherParent (kind : Kind) (span : Span)
  | root
  deriving DecidableEq, Repr

def Fault.message : Fault → String
  | tree e => e.message
  | twoParents kind span => "Unbalanced tree: " ++ describe kind span ++ " has more than one parent"
  | otherParent kind span =>
    "Invalid range for " ++ describe kind span ++ ": parent link does not match owner"
  | root => "Unbalanced tree: root must be a live node without parent"

/-- Stores the nodes of a run behind the slots there are, each behind those below it, and lists the
places of the siblings. -/
def push (slots : Array Slot) : Outline → List NodeId × Array Slot
  | .done => ([], slots)
  | .node kind s children next =>
    let below := push slots children
    let beside := push (below.2.push ⟨kind, s, none, below.1, true⟩) next
    (below.2.size :: beside.1, beside.2)

/-- Tells a child its parent. -/
def adopt (owner : NodeId) (a : Arena) (child : NodeId) : Except Fault Arena :=
  match a.slot? child with
  | none => .error (.tree .unknownNode)
  | some s =>
    if s.parent.isSome then .error (.twoParents s.kind s.span)
    else .ok (a.modify child (.adopted owner))

/-- Tells the children of a node their parent. -/
def linkOne (a : Arena) (owner : NodeId) : Except Fault Arena :=
  (a.slot owner).children.foldlM (adopt owner) a

/-- Tells every slot its parent. -/
def link (a : Arena) : Except Fault Arena := (List.range a.slots.size).foldlM linkOne a

/-- Checks the children of a node in order, the first from `cursor` on. -/
def checkOrder (a : Arena) (owner : NodeId) (s : Slot) (cursor : Nat) :
    List NodeId → Except Fault Unit
  | [] => .ok ()
  | child :: more =>
    match a.live child with
    | .error e => .error (.tree e)
    | .ok c =>
      if c.parent ≠ some owner then .error (.otherParent c.kind c.span)
      else if c.span.start < cursor then .error (.tree (.invalidRange c.kind c.span .overlaps))
      else if s.span.stop < c.span.stop then
        .error (.tree (.invalidRange c.kind c.span (.exceedsParent s.kind s.span.stop)))
      else checkOrder a owner s c.span.stop more

/-- Checks the nodes on a stack and those below them.  Children are put on it in order, so that the
last is taken off first.  A node is checked once, so there are no more steps than slots. -/
def checkNodes (a : Arena) : Nat → List NodeId → Except Fault Unit
  | _, [] => .ok ()
  | 0, _ :: _ => .ok ()
  | fuel + 1, id :: stack => do
    let s := a.slot id
    (Outline.checkRange a.source s.kind s.span).mapError .tree
    a.checkOrder id s s.span.start s.children
    checkNodes a fuel (s.children.reverse ++ stack)

/-- Checks the nodes of a tree from its root on. -/
def validate (a : Arena) (root : NodeId) : Except Fault Unit :=
  match a.slot? root with
  | none => .error (.tree .unknownNode)
  | some s =>
    if s.alive && s.parent.isNone then a.checkNodes a.slots.size [root] else .error .root

/-- Loads an outline over a source; what is loaded comes with the place of the root. -/
def load (source : String) (n : OutlineNode) : Except Fault (Arena × NodeId) := do
  let below := push #[] n.children
  let a ← link ⟨source, below.2.push ⟨n.kind, n.span, none, below.1, true⟩⟩
  a.validate below.2.size
  return (a, below.2.size)

/-- The outline of some siblings.  No node is below itself or behind itself, so there are no more
nodes below and behind one than slots. -/
def outlines (a : Arena) : Nat → List NodeId → Outline
  | _, [] => .done
  | 0, _ :: _ => .done
  | fuel + 1, id :: ids =>
    let s := a.slot id
    .node s.kind s.span (a.outlines fuel s.children) (a.outlines fuel ids)

/-- The outline of a node. -/
def outline (a : Arena) (root : NodeId) : OutlineNode :=
  ⟨(a.slot root).kind, (a.slot root).span, a.outlines a.slots.size (a.slot root).children⟩

end Arena

end SyntaxLint
