import SyntaxLint.Text.Bytes
import SyntaxLint.Tree.Edit

/-!
# Trees — slots

A tree can be stored as its source and one slot for every node there ever was, at the place that is
the identity of the node.  A slot has the kind and the span of the node, the identities of its
parent and its children, and whether the node is alive.  Edits are made in place, one write after
the other: the source is spliced, spans are moved, and removed nodes are marked dead with their
links left as they are.

* `Arena`, `Tree.arena`: a stored tree, and a tree as it is stored when it is new.
* `Arena.edit`: an edit in place.
-/

namespace SyntaxLint

/-- A node as it is stored. -/
structure Slot where
  kind : Kind
  span : Span
  parent : Option NodeId
  children : List NodeId
  alive : Bool
  deriving DecidableEq, Repr, Inhabited

/-- A tree as it is stored. -/
structure Arena where
  source : String
  slots : Array Slot
  deriving DecidableEq, Repr, Inhabited

/-- An offset that is moved, to the start of the source at most. -/
def shifted (offset : Nat) (delta : Int) : Nat := (offset + delta).toNat

namespace Slot

/-- A slot that moves. -/
def shift (delta : Int) (s : Slot) : Slot :=
  { s with span := ⟨shifted s.span.start delta, shifted s.span.stop delta⟩ }

/-- A slot that grows or shrinks. -/
def stretch (delta : Int) (s : Slot) : Slot :=
  { s with span := ⟨s.span.start, shifted s.span.stop delta⟩ }

/-- A slot that is marked dead. -/
def kill (s : Slot) : Slot := { s with alive := false }

end Slot

namespace Arena

/-- The slot at a place. -/
def slot? (a : Arena) (id : NodeId) : Option Slot := a.slots[id]?

/-- The slot at a place that there is. -/
def slot (a : Arena) (id : NodeId) : Slot := (a.slot? id).getD default

/-- Changes one slot. -/
def modify (a : Arena) (id : NodeId) (f : Slot → Slot) : Arena :=
  { a with slots := a.slots.modify id f }

/-- Replaces a stretch of the source. -/
def splice (a : Arena) (s : Span) (text : String) : Arena :=
  { a with source := Text.splice a.source s.start s.stop text }

/-- The slot of a live node. -/
def live (a : Arena) (id : NodeId) : Except TreeError Slot :=
  match (a.slot? id).filter (·.alive) with
  | some s => .ok s
  | none => .error .unknownNode

/-- The place of a child among the children of a node. -/
def childIndex (a : Arena) (parent child : NodeId) : Except TreeError Nat :=
  match (a.slot parent).children.idxOf? child with
  | some i => .ok i
  | none => .error (.invalidEdit (.notChild (a.slot parent).kind (a.slot parent).span))

/-- Changes the slots on a stack and those below them.  A slot is visited once, so there are no
more steps than there are slots. -/
def walk (f : Slot → Slot) : Nat → List NodeId → Arena → Arena
  | _, [], a => a
  | 0, _ :: _, a => a
  | fuel + 1, id :: stack, a =>
    let a := a.modify id f
    walk f fuel ((a.slot id).children.reverse ++ stack) a

/-- Changes the slot of a node and those below it. -/
def below (f : Slot → Slot) (a : Arena) (id : NodeId) : Arena := walk f a.slots.size [id] a

/-- Moves the children of a node from a place on, and lets the node grow or shrink. -/
def sweep (delta : Int) (a : Arena) (owner : NodeId) (index : Nat) : Arena :=
  (((a.slot owner).children.drop index).foldl (below (.shift delta)) a).modify owner
    (.stretch delta)

/-- The same for a node and then for every node above it, behind the one below. -/
def climb (delta : Int) : Nat → Arena → NodeId → Nat → Arena
  | 0, a, _, _ => a
  | fuel + 1, a, owner, index =>
    let a := a.sweep delta owner index
    match (a.slot owner).parent with
    | none => a
    | some next =>
      climb delta fuel a next (((a.slot next).children.idxOf? owner).elim 0 (· + 1))

/-- Moves what follows an edit.  No node is above itself, so there are no more nodes above one than
there are slots. -/
def shiftFollowing (a : Arena) (parent : NodeId) (index : Nat) (delta : Int) : Arena :=
  if delta = 0 then a else climb delta a.slots.size a parent index

/-- What became of an edit in place, and the arena after it: whatever had been written by then. -/
structure Outcome where
  result : Except TreeError Span
  arena : Arena

/-- The span of a node whose text is replaced. -/
def newSpan (s : Slot) (text : String) : Span :=
  ⟨s.span.start, s.span.start + text.utf8ByteSize⟩

/-- The length of the source when the text of a node becomes `text`. -/
def lengthWith (a : Arena) (s : Slot) (text : String) : Nat :=
  a.source.utf8ByteSize - s.span.length + text.utf8ByteSize

/-- The first writes of a replacement: those to the source and to the span of the node. -/
def rewrite (a : Arena) (id : NodeId) (s : Slot) (text : String) : Arena :=
  (a.splice s.span text).modify id fun s' => { s' with span := newSpan s text }

/-- Replaces the text of a leaf.  The place of the leaf among its siblings is looked up after the
first writes. -/
def replaceText (a : Arena) (id : NodeId) (text : String) : Outcome :=
  match a.live id with
  | .error e => ⟨.error e, a⟩
  | .ok s =>
    if s.children ≠ [] then ⟨.error (.invalidEdit (.notLeaf s.kind s.span)), a⟩
    else if Nat.pow 2 32 ≤ a.lengthWith s text then ⟨.error (.invalidEdit .tooLong), a⟩
    else
      let b := a.rewrite id s text
      match s.parent with
      | none => ⟨.ok (newSpan s text), b⟩
      | some parent =>
        match b.childIndex parent id with
        | .error e => ⟨.error e, b⟩
        | .ok i =>
          ⟨.ok (newSpan s text),
            b.shiftFollowing parent (i + 1) (text.utf8ByteSize - s.span.length)⟩

/-- Takes the children of a node from one place to another out of its list and marks them and what
is below them dead. -/
def drain (a : Arena) (parent : NodeId) (i j : Nat) : Arena :=
  let doomed := ((a.slot parent).children.drop i).take (j + 1 - i)
  let a := a.modify parent fun s =>
    { s with children := s.children.take i ++ s.children.drop (j + 1) }
  doomed.foldl (below .kill) a

/-- Removes the children of a node from one to another. -/
def removeRange (a : Arena) (parent first last : NodeId) : Outcome :=
  match (do
    let _ ← a.live parent
    let x ← a.live first
    let y ← a.live last
    let i ← a.childIndex parent first
    let j ← a.childIndex parent last
    return (x, y, i, j) : Except TreeError (Slot × Slot × Nat × Nat)) with
  | .error e => ⟨.error e, a⟩
  | .ok (x, y, i, j) =>
    if j < i then ⟨.error (.invalidEdit .reversed), a⟩
    else
      let removed : Span := ⟨x.span.start, y.span.stop⟩
      ⟨.ok removed, ((a.splice removed "").drain parent i j).shiftFollowing parent i
        (-removed.length)⟩

/-- Makes an edit in place. -/
def edit (a : Arena) : Edit → Outcome
  | .replace id text => a.replaceText id text
  | .remove parent first last => a.removeRange parent first last

end Arena

/-- A node as it is stored when it is alive. -/
def Placed.slot (n : Placed) : Slot := ⟨n.kind, n.span, n.parent, n.children.map (·.id), true⟩

/-- A tree as it is stored when it is new; a slot without a live node is dead. -/
def Tree.arena (t : Tree) : Arena where
  source := t.source
  slots := (Array.range (t.root.id + 1)).map fun id =>
    ((t.node? id).map Placed.slot).getD { (default : Slot) with alive := false }

end SyntaxLint
