import SyntaxLint.Tree.Outline

/-!
# Trees — building from events

A producer describes a tree as a sequence of events: a node starts, a token with its text, a node
finishes.  The source is the text of the tokens in order.  A token takes the next identity where
it occurs and a composite node where it finishes, so children come before their parent.

* `Building.step`: what one event does.
* `Tree.ofEvents`: the tree of a sequence of events that is one balanced node.
-/

namespace SyntaxLint

/-- A step in the description of a tree. -/
inductive Event where
  | start (kind : Kind)
  | token (kind : Kind) (text : String)
  | finish
  deriving DecidableEq, Repr, Inhabited

/-- A node that has started: its kind and its children so far, last first. -/
structure OpenNode where
  kind : Kind
  children : List Node
  deriving DecidableEq, Repr, Inhabited

/-- The state between two events. -/
structure Building where
  /-- the length of the text so far -/
  offset : Nat
  /-- the next free identity -/
  free : NodeId
  /-- the nodes that have started and not finished, innermost first -/
  pending : List OpenNode
  root : Option Node
  /-- the first mistake -/
  fault : Option BalanceFault
  deriving DecidableEq, Repr, Inhabited

/-- The tree of a root with no text around it. -/
def Tree.ofRoot (identity : TreeId) (root : Node) : Tree :=
  { identity, before := "", root, after := "" }

namespace Building

/-- Before the first event. -/
def empty : Building := ⟨0, 0, [], none, none⟩

/-- The number of open nodes. -/
def depth (b : Building) : Nat := b.pending.length

/-- Records a mistake, unless one was made before. -/
def fail (b : Building) (fault : BalanceFault) : Building :=
  { b with fault := some (b.fault.getD fault) }

/-- The state after one more event. -/
def step (b : Building) : Event → Building
  | .start kind =>
    match b.root with
    | some _ => b.fail (.startAfterRoot kind)
    | none => { b with pending := ⟨kind, []⟩ :: b.pending }
  | .token kind text =>
    let next := { b with offset := b.offset + text.utf8ByteSize, free := b.free + 1 }
    match b.pending with
    | [] => next.fail (.tokenOutside kind)
    | n :: rest =>
      let node : Node := ⟨b.free, kind, .tail text⟩
      { next with pending := { n with children := node :: n.children } :: rest }
  | .finish =>
    match b.pending with
    | [] => b.fail .unmatchedFinish
    | n :: rest =>
      let node : Node := ⟨b.free, n.kind, Content.ofNodes n.children.reverse⟩
      let next := { b with free := b.free + 1 }
      match rest with
      | [] => { next with pending := [], root := some node }
      | m :: rest =>
        { next with pending := { m with children := node :: m.children } :: rest }

/-- The state after a sequence of events. -/
def run (b : Building) (events : List Event) : Building := events.foldl step b

theorem run_cons (b : Building) (e : Event) (events : List Event) :
    b.run (e :: events) = (b.step e).run events := rfl

theorem run_append (b : Building) (events more : List Event) :
    b.run (events ++ more) = (b.run events).run more :=
  List.foldl_append

/-- The tree of a finished node whose text is as long as `offset`. -/
def grown (identity : TreeId) (root : Node) (offset : Nat) : Except TreeError Tree :=
  let t := Tree.ofRoot identity root
  if offset < Nat.pow 2 32 then .ok t else Tree.ofOutline identity t.source t.outline.wrapped

/-- The tree built, once it is one finished node and no mistake was made. -/
def tree (b : Building) (identity : TreeId) : Except TreeError Tree :=
  match b.fault, b.pending, b.root with
  | some fault, _, _ => .error (.unbalanced fault)
  | none, n :: rest, _ => .error (.unbalanced (.leftOpen n.kind (rest.length + 1)))
  | none, [], none => .error (.unbalanced .noRoot)
  | none, [], some root => grown identity root b.offset

/-- One finished node is all there is, and no mistake was made. -/
structure Finishes (b : Building) (root : Node) : Prop where
  fault : b.fault = none
  pending : b.pending = []
  root : b.root = some root

/-- When there is a tree. -/
theorem tree_eq_ok_iff {b : Building} {identity : TreeId} {t : Tree} :
    b.tree identity = .ok t ↔ ∃ root, b.Finishes root ∧ grown identity root b.offset = .ok t := by
  constructor
  · intro h
    unfold tree at h
    split at h
    · cases h
    · cases h
    · cases h
    · rename_i root fault pending built
      exact ⟨root, ⟨fault, pending, built⟩, h⟩
  · rintro ⟨root, ⟨fault, pending, built⟩, h⟩
    rw [tree, fault, pending, built]
    exact h

end Building

/-- The tree that a sequence of events describes. -/
def Tree.ofEvents (identity : TreeId) (events : List Event) : Except TreeError Tree :=
  (Building.empty.run events).tree identity

end SyntaxLint
