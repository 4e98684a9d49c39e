import SyntaxLint.Tree.Event
import SyntaxLint.Tree.Load

/-!
# Trees — assembling slots

A tree that is described by events is stored slot by slot: a token where it occurs, a node where it
finishes, with the range of the text since it started and the places of its children.  Offsets are
kept in 32 bits.  Mistakes are noted and the slots go on.  At the end the slots are told their
parents and checked, as those of an outline that is loaded.

* `Assembly.step`, `Assembly.finish`: one event, and the end.
-/

namespace SyntaxLint

/-- A node that has started: where its text begins, and the places of its children so far. -/
structure OpenSlot where
  kind : Kind
  start : Nat
  children : List NodeId
  deriving DecidableEq, Repr, Inhabited

/-- A tree that is stored slot by slot. -/
structure Assembly where
  source : String
  slots : Array Slot
  /-- the nodes that have started and not finished, innermost first -/
  stack : List OpenSlot
  root : Option NodeId
  /-- the first mistake -/
  error : Option BalanceFault
  deriving DecidableEq, Repr, Inhabited

namespace Assembly

/-- Before the first event. -/
def empty : Assembly := ⟨"", #[], [], none, none⟩

/-- Where the next text begins, in 32 bits. -/
def offset (a : Assembly) : Nat := Span.word a.source.utf8ByteSize

/-- Notes a mistake, unless one was made before. -/
def fail (a : Assembly) (fault : BalanceFault) : Assembly :=
  { a with error := some (a.error.getD fault) }

/-- Stores a node with the text from `start` on. -/
def store (a : Assembly) (kind : Kind) (start : Nat) (children : List NodeId) : Assembly :=
  { a with slots := a.slots.push ⟨kind, ⟨start, a.offset⟩, none, children, true⟩ }

/-- The state after one more event. -/
def step (a : Assembly) : Event → Assembly
  | .start kind =>
    if a.root.isSome then a.fail (.startAfterRoot kind)
    else { a with stack := ⟨kind, a.offset, []⟩ :: a.stack }
  | .token kind text =>
    let id := a.slots.size
    let next := store { a with source := a.source ++ text } kind a.offset []
    match a.stack with
    | [] => next.fail (.tokenOutside kind)
    | n :: rest => { next with stack := { n with children := n.children ++ [id] } :: rest }
  | .finish =>
    match a.stack with
    | [] => a.fail .unmatchedFinish
    | n :: rest =>
      let id := a.slots.size
      let next := a.store n.kind n.start n.children
      match rest with
      | [] => { next with stack := [], root := some id }
      | m :: rest => { next with stack := { m with children := m.children ++ [id] } :: rest }

/-- The state after a sequence of events. -/
def run (a : Assembly) (es : List Event) : Assembly := es.foldl step a

/-- The slots with their parents, checked, and the place of the root. -/
def finish (a : Assembly) : Except Arena.Fault (Arena × NodeId) :=
  match a.error, a.stack, a.root with
  | some fault, _, _ => .error (.tree (.unbalanced fault))
  | none, n :: rest, _ => .error (.tree (.unbalanced (.leftOpen n.kind (rest.length + 1))))
  | none, [], none => .error (.tree (.unbalanced .noRoot))
  | none, [], some root => do
    let linked ← Arena.link ⟨a.source, a.slots⟩
    linked.validate root
    return (linked, root)

end Assembly

end SyntaxLint
