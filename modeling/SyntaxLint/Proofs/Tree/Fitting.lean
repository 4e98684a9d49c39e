import Mathlib.Data.List.Chain
import Mathlib.Tactic.Tauto
import SyntaxLint.Proofs.Text.Splice
import SyntaxLint.Tree.Outline

/-!
# Proofs — Trees — outlines that fit

The check of an outline goes from node to node and stops at the first fault.  What it lets pass is
told node by node: the range of each node is not reversed, lies in the source and cuts no character,
and its children stand in order within it.  What it refuses it blames on one node, with a cause that
is true of that node.

* `Text.Divides`, `Span.Around`: offsets between characters, and spans in order within another.
* `OutlineNode.Fits`, `OutlineNode.Blames`: a node that fits, and one that is at fault.
* `OutlineNode.check_eq_ok_iff`: what the check lets pass.
* `OutlineNode.blames_of_check`: what it refuses.
-/

namespace SyntaxLint

/-- An offset at an end of a text or between two characters. -/
def Text.Divides (source : String) (offset : Nat) : Prop :=
  ∃ before after, source = before ++ after ∧ before.utf8ByteSize = offset

theorem Text.endsCharacter_iff {source : String} {offset : Nat} :
    endsCharacter source offset = true ↔ Divides source offset := by
  constructor
  case mp =>
    rw [endsCharacter_eq, isBoundary_iff]
    rintro ⟨i, rfl⟩
    refine ⟨.ofList (source.toList.take i), .ofList (source.toList.drop i), ?_,
      utf8ByteSize_ofList _⟩
    rw [← String.ofList_append, List.take_append_drop, String.ofList_toList]
  case mpr =>
    rintro ⟨before, after, rfl, rfl⟩
    exact endsCharacter_append before after

/-- Spans that stand in order within another: the first begins at or after its start, each next at
or after the end of the one before, and each ends by its end. -/
structure Span.Around (s : Span) (inner : List Span) : Prop where
  first : ∀ x ∈ inner.head?, s.start ≤ x.start
  next : inner.IsChain fun x y => x.stop ≤ y.start
  last : ∀ x ∈ inner, x.stop ≤ s.stop

@[simp] theorem Span.around_nil (s : Span) : s.Around [] := ⟨by simp, .nil, by simp⟩

/-- The spans behind the first stand between its end and the end of all. -/
theorem Span.around_cons {start stop : Nat} {x : Span} {inner : List Span} :
    Around ⟨start, stop⟩ (x :: inner) ↔
      start ≤ x.start ∧ x.stop ≤ stop ∧ Around ⟨x.stop, stop⟩ inner := by
  constructor
  case mp =>
    rintro ⟨first, next, last⟩
    rw [List.isChain_cons] at next
    rw [List.forall_mem_cons] at last
    exact ⟨first x rfl, last.1, next.1, next.2, last.2⟩
  case mpr =>
    rintro ⟨start, stop, first, next, last⟩
    refine ⟨?_, List.isChain_cons.2 ⟨first, next⟩, List.forall_mem_cons.2 ⟨stop, last⟩⟩
    simpa using start

/-- A range that cannot be that of a node of `source`, and why. -/
inductive Span.Misfit (source : String) (s : Span) : RangeFault → Prop where
  | reversed (h : s.stop < s.start) : Misfit source s .reversed
  | pastEnd (h : source.utf8ByteSize < s.stop) : Misfit source s (.pastEnd source.utf8ByteSize)
  | splitsCharacter (h : ¬(Text.Divides source s.start ∧ Text.Divides source s.stop)) :
      Misfit source s .splitsCharacter

namespace Outline

/-- The nodes of a run, each after those below it. -/
def postorder : Outline → List OutlineNode
  | .done => []
  | .node kind span children next =>
    children.postorder ++ ⟨kind, span, children⟩ :: next.postorder

/-- The ranges of the nodes of a run. -/
def spans (o : Outline) : List Span := o.nodes.map (·.span)

@[simp] theorem spans_node (kind : Kind) (span : Span) (children next : Outline) :
    (node kind span children next).spans = span :: next.spans := rfl

end Outline

namespace OutlineNode

/-- The nodes at and below a node, each after those below it: the node itself is the last. -/
def postorder (n : OutlineNode) : List OutlineNode := n.children.postorder ++ [n]

/-- A node whose range lies in the source, between characters, around those of its children. -/
structure Fits (source : String) (n : OutlineNode) : Prop where
  ordered : n.span.start ≤ n.span.stop
  inside : n.span.stop ≤ source.utf8ByteSize
  start : Text.Divides source n.span.start
  stop : Text.Divides source n.span.stop
  children : n.span.Around n.children.spans

/-- A child that does not stand where one of `parent` can, and why. -/
inductive Misplaces (parent : OutlineNode) : OutlineNode → RangeFault → Prop where
  | overlaps {before behind : List OutlineNode} {m : OutlineNode}
      (split : parent.children.nodes = before ++ m :: behind)
      (h : m.span.start < before.getLast?.elim parent.span.start (·.span.stop)) :
      Misplaces parent m .overlaps
  | exceedsParent {m : OutlineNode} (hm : m ∈ parent.children.nodes)
      (h : parent.span.stop < m.span.stop) :
      Misplaces parent m (.exceedsParent parent.kind parent.span.stop)

/-- A node of an outline that is at fault, and why: its own range, or where its parent has it. -/
inductive Blames (source : String) (nodes : List OutlineNode) :
    OutlineNode → RangeFault → Prop where
  | range {m : OutlineNode} {cause : RangeFault} (hm : m ∈ nodes) (h : m.span.Misfit source cause) :
      Blames source nodes m cause
  | place {p m : OutlineNode} {cause : RangeFault} (hp : p ∈ nodes) (h : p.Misplaces m cause) :
      Blames source nodes m cause

theorem Blames.mono {source : String} {nodes nodes' : List OutlineNode} {m : OutlineNode}
    {cause : RangeFault} (h : Blames source nodes m cause) (sub : ∀ x ∈ nodes, x ∈ nodes') :
    Blames source nodes' m cause := by
  cases h with
  | range hm h => exact .range (sub _ hm) h
  | place hp h => exact .place (sub _ hp) h

end OutlineNode

namespace Outline

variable {source : String} {o : Outline} {e : TreeError}

/-! ### One range -/

theorem checkRange_eq_ok_iff {kind : Kind} {s : Span} :
    checkRange source kind s = .ok () ↔ s.start ≤ s.stop ∧ s.stop ≤ source.utf8ByteSize ∧
      Text.Divides source s.start ∧ Text.Divides source s.stop := by
  rw [← Text.endsCharacter_iff, ← Text.endsCharacter_iff, ← Bool.and_eq_true, checkRange]
  grind

theorem misfit_of_checkRange {kind : Kind} {s : Span} (h : checkRange source kind s = .error e) :
    ∃ cause, e = .invalidRange kind s cause ∧ s.Misfit source cause := by
  unfold checkRange at h
  split at h
  case isTrue reversed =>
    cases h
    exact ⟨_, rfl, .reversed reversed⟩
  split at h
  case isTrue past =>
    cases h
    exact ⟨_, rfl, .pastEnd past⟩
  split at h
  case isTrue => cases h
  case isFalse splits =>
    cases h
    refine ⟨_, rfl, .splitsCharacter ?_⟩
    rwa [Bool.and_eq_true, Text.endsCharacter_iff, Text.endsCharacter_iff] at splits

/-! ### The children of one node -/

theorem checkOrder_eq_ok_iff {kind : Kind} {stop cursor : Nat} :
    o.checkOrder kind stop cursor = .ok () ↔ Span.Around ⟨cursor, stop⟩ o.spans := by
  induction o generalizing cursor with
  | done => simp [checkOrder, spans, nodes]
  | node k s children next _ ih =>
    rw [spans_node, Span.around_cons, ← ih, checkOrder]
    grind

/-- The child at fault begins before the end of the one before it, or ends behind its parent. -/
theorem misplaces_of_checkOrder (parent : OutlineNode) (before : List OutlineNode)
    (split : parent.children.nodes = before ++ o.nodes)
    (h : o.checkOrder parent.kind parent.span.stop
      (before.getLast?.elim parent.span.start (·.span.stop)) = .error e) :
    ∃ m cause, e = .invalidRange m.kind m.span cause ∧ parent.Misplaces m cause := by
  -- by induction on the children that are left, of which the first joins those before
  induction o generalizing before with
  | done => cases h
  | node k s children next _ ih =>
    rw [nodes] at split
    unfold checkOrder at h
    split at h
    case isTrue overlaps =>
      cases h
      exact ⟨_, _, rfl, .overlaps split overlaps⟩
    split at h
    case isTrue exceeds =>
      cases h
      exact ⟨⟨k, s, children⟩, _, rfl, .exceedsParent (by simp [split]) exceeds⟩
    refine ih (before ++ [⟨k, s, children⟩]) (by simp [split]) ?_
    simpa using h

/-! ### All nodes -/

theorem check_node_eq_ok_iff {kind : Kind} {s : Span} {children next : Outline} :
    (node kind s children next).check source = .ok () ↔
      next.check source = .ok () ∧ checkRange source kind s = .ok () ∧
        children.checkOrder kind s.stop s.start = .ok () ∧ children.check source = .ok () := by
  rw [check]
  cases next.check source <;> cases checkRange source kind s <;>
    cases children.checkOrder kind s.stop s.start <;> simp [bind, Except.bind]

/-- A run is refused by one of the checks of which its own consists. -/
theorem check_node_eq_error {kind : Kind} {s : Span} {children next : Outline}
    (h : (node kind s children next).check source = .error e) :
    next.check source = .error e ∨ checkRange source kind s = .error e ∨
      children.checkOrder kind s.stop s.start = .error e ∨ children.check source = .error e := by
  rw [check] at h
  revert h
  cases next.check source <;> cases checkRange source kind s <;>
    cases children.checkOrder kind s.stop s.start <;> simp +contextual [bind, Except.bind]

/-- A run passes when each of its nodes fits. -/
theorem check_eq_ok_iff : o.check source = .ok () ↔ ∀ m ∈ o.postorder, m.Fits source := by
  induction o with
  | done => simp [check, postorder]
  | node kind s children next ihc ihn =>
    have here : OutlineNode.Fits source ⟨kind, s, children⟩ ↔
        checkRange source kind s = .ok () ∧ children.checkOrder kind s.stop s.start = .ok () := by
      rw [checkRange_eq_ok_iff, checkOrder_eq_ok_iff]
      exact ⟨fun h => ⟨⟨h.ordered, h.inside, h.start, h.stop⟩, h.children⟩,
        fun h => ⟨h.1.1, h.1.2.1, h.1.2.2.1, h.1.2.2.2, h.2⟩⟩
    rw [check_node_eq_ok_iff, ihc, ihn, postorder, List.forall_mem_append, List.forall_mem_cons,
      here]
    tauto

/-- A run that is refused has a node at fault. -/
theorem blames_of_check (h : o.check source = .error e) :
    ∃ m cause, e = .invalidRange m.kind m.span cause ∧
      OutlineNode.Blames source o.postorder m cause := by
  induction o with
  | done => cases h
  | node kind s children next ihc ihn =>
    have mem : (⟨kind, s, children⟩ : OutlineNode) ∈ (node kind s children next).postorder :=
      List.mem_append_right _ List.mem_cons_self
    rcases check_node_eq_error h with beside | range | order | below
    · obtain ⟨m, cause, rfl, blames⟩ := ihn beside
      exact ⟨m, cause, rfl, blames.mono (by simp +contextual [postorder])⟩
    · obtain ⟨cause, rfl, misfit⟩ := misfit_of_checkRange range
      exact ⟨_, cause, rfl, .range mem misfit⟩
    · obtain ⟨m, cause, rfl, misplaces⟩ :=
        misplaces_of_checkOrder ⟨kind, s, children⟩ [] rfl order
      exact ⟨m, cause, rfl, .place mem misplaces⟩
    · obtain ⟨m, cause, rfl, blames⟩ := ihc below
      exact ⟨m, cause, rfl, blames.mono (by simp +contextual [postorder])⟩

end Outline

namespace OutlineNode

variable {source : String} {n : OutlineNode}

/-- **An outline passes when each of its nodes fits.** -/
theorem check_eq_ok_iff : n.check source = .ok () ↔ ∀ m ∈ n.postorder, m.Fits source :=
  Outline.check_eq_ok_iff

/-- **An outline that is refused has a node at fault.** -/
theorem blames_of_check {e : TreeError} (h : n.check source = .error e) :
    ∃ m cause, e = .invalidRange m.kind m.span cause ∧ Blames source n.postorder m cause :=
  Outline.blames_of_check h

end OutlineNode

end SyntaxLint
