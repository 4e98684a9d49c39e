import SyntaxLint.Proofs.Tree.Building
import SyntaxLint.Proofs.Tree.Laying

/-!
# Proofs — Trees — plans

A plan is a run of siblings before it has a place: leaves with their text, and nodes with what is
below them.  It is written as a sequence of events, and a sequence of events is one node with its
plan just if nothing is open after it and it makes no mistake; any other makes one mistake first.

* `Plan.events`, `Plan.outline`: how a plan is written, and what is built of it.
* `Mistake`: the first mistake of a sequence of events.
* `Plan.whole_or_mistake`: there is nothing else.
* `Tree.ofEvents_whole`: the tree of a plan.
* `Tree.ofEvents_of_mistake`: the error for anything else.
-/

namespace SyntaxLint

/-- Siblings as they are described: leaves with their text, and nodes with what is below them. -/
inductive Plan where
  | done
  | leaf (kind : Kind) (text : String) (next : Plan)
  | node (kind : Kind) (inner next : Plan)
  deriving DecidableEq, Repr, Inhabited

namespace Plan

/-- The events that describe the siblings. -/
def events : Plan → List Event
  | done => []
  | leaf kind text next => .token kind text :: next.events
  | node kind inner next => .start kind :: (inner.events ++ .finish :: next.events)

/-- The events that describe one node. -/
def whole (kind : Kind) (inner : Plan) : List Event := .start kind :: (inner.events ++ [.finish])

/-- The events of nodes that have started and not finished, innermost first, each with the children
that it has before the next one. -/
def opened : List (Kind × Plan) → List Event
  | [] => []
  | (kind, p) :: outer => opened outer ++ .start kind :: p.events

/-- The length of the text. -/
def width : Plan → Nat
  | done => 0
  | leaf _ text next => text.utf8ByteSize + next.width
  | node _ inner next => inner.width + next.width

/-- The number of nodes. -/
def size : Plan → Nat
  | done => 0
  | leaf _ _ next => 1 + next.size
  | node _ inner next => inner.size + 1 + next.size

/-- The siblings with the ranges they have when their text begins at `start`. -/
def outline (start : Nat) : Plan → Outline
  | done => .done
  | leaf kind text next =>
    .node kind ⟨start, start + text.utf8ByteSize⟩ .done (next.outline (start + text.utf8ByteSize))
  | node kind inner next =>
    .node kind ⟨start, start + inner.width⟩ (inner.outline start)
      (next.outline (start + inner.width))

/-- The siblings with identities that count them in post-order, from `free` on. -/
def nodes (free : NodeId) : Plan → List Node
  | done => []
  | leaf kind text next => ⟨free, kind, .tail text⟩ :: next.nodes (free + 1)
  | node kind inner next =>
    ⟨free + inner.size, kind, Content.ofNodes (inner.nodes free)⟩ ::
      next.nodes (free + inner.size + 1)

/-- The siblings of one run and then those of another. -/
def append : Plan → Plan → Plan
  | done, q => q
  | leaf kind text next, q => leaf kind text (next.append q)
  | node kind inner next, q => node kind inner (next.append q)

variable {p q : Plan}

theorem events_append (p q : Plan) : (p.append q).events = p.events ++ q.events := by
  induction p with
  | done => rfl
  | leaf kind text next ih => rw [append, events, ih]; rfl
  | node kind inner next _ ih => simp [append, events, ih]

theorem length_postorder_outline (p : Plan) (start : Nat) :
    (p.outline start).postorder.length = p.size := by
  induction p generalizing start with
  | done => rfl
  | leaf kind text next ih =>
    simp [outline, Outline.postorder, size, ih]
    omega
  | node kind inner next ihi ihn =>
    simp [outline, Outline.postorder, size, ihi, ihn]
    omega

/-! ### Mistakes -/

/-- What nothing is open after. -/
def Closed (es : List Event) : Prop := es = [] ∨ ∃ kind p, es = whole kind p

end Plan

/-- The first mistake of a sequence of events, whatever follows it. -/
inductive Mistake : List Event → BalanceFault → Prop where
  | startAfterRoot (k : Kind) (p : Plan) (kind : Kind) (more : List Event) :
      Mistake (Plan.whole k p ++ .start kind :: more) (.startAfterRoot kind)
  | tokenOutside {es : List Event} (closed : Plan.Closed es) (kind : Kind) (text : String)
      (more : List Event) : Mistake (es ++ .token kind text :: more) (.tokenOutside kind)
  | unmatchedFinish {es : List Event} (closed : Plan.Closed es) (more : List Event) :
      Mistake (es ++ .finish :: more) .unmatchedFinish
  | leftOpen (kind : Kind) (p : Plan) (outer : List (Kind × Plan)) :
      Mistake (Plan.opened ((kind, p) :: outer)) (.leftOpen kind (outer.length + 1))
  | noRoot : Mistake [] .noRoot

namespace Plan

/-- **A sequence of events is one node or makes a mistake.** -/
theorem whole_or_mistake (es : List Event) :
    (∃ kind p, es = whole kind p) ∨ ∃ fault, Mistake es fault := by
  induction es using List.reverseRecOn with
  | nil => exact .inr ⟨_, .noRoot⟩
  | append_singleton es e ih =>
    obtain ⟨k, p, rfl⟩ | ⟨fault, mistake⟩ := ih
    · have closed : Closed (whole k p) := .inr ⟨k, p, rfl⟩
      cases e with
      | start kind => exact .inr ⟨_, .startAfterRoot k p kind []⟩
      | token kind text => exact .inr ⟨_, .tokenOutside closed kind text []⟩
      | finish => exact .inr ⟨_, .unmatchedFinish closed []⟩
    -- a mistake that was made stays the first; one that is none yet depends on the event
    cases mistake with
    | startAfterRoot k p kind more =>
      rw [List.append_assoc, List.cons_append]
      exact .inr ⟨_, .startAfterRoot k p kind _⟩
    | tokenOutside closed kind text more =>
      rw [List.append_assoc, List.cons_append]
      exact .inr ⟨_, .tokenOutside closed kind text _⟩
    | unmatchedFinish closed more =>
      rw [List.append_assoc, List.cons_append]
      exact .inr ⟨_, .unmatchedFinish closed _⟩
    | noRoot =>
      cases e with
      | start kind => exact .inr ⟨_, .leftOpen kind .done []⟩
      | token kind text => exact .inr ⟨_, .tokenOutside (.inl rfl) kind text []⟩
      | finish => exact .inr ⟨_, .unmatchedFinish (.inl rfl) []⟩
    | leftOpen kind p outer =>
      cases e with
      | start k => exact .inr ⟨_, .leftOpen k .done ((kind, p) :: outer)⟩
      | token k text =>
        have longer : opened ((kind, p) :: outer) ++ [.token k text] =
            opened ((kind, p.append (.leaf k text .done)) :: outer) := by
          simp [opened, events_append, events]
        rw [longer]
        exact .inr ⟨_, .leftOpen kind _ outer⟩
      | finish =>
        cases outer with
        | nil => exact .inl ⟨kind, p, rfl⟩
        | cons next outer =>
          obtain ⟨k, q⟩ := next
          have closed : opened ((kind, p) :: (k, q) :: outer) ++ [.finish] =
              opened ((k, q.append (.node kind p .done)) :: outer) := by
            simp [opened, events_append, events]
          rw [closed]
          exact .inr ⟨_, .leftOpen k _ outer⟩

end Plan

/-! ### Building -/

namespace Building

/-- **The events of siblings** give them to the node that is open. -/
theorem run_events (p : Plan) (offset : Nat) (free : NodeId) (m : OpenNode)
    (rest : List OpenNode) (fault : Option BalanceFault) :
    run ⟨offset, free, m :: rest, none, fault⟩ p.events =
      ⟨offset + p.width, free + p.size,
        ⟨m.kind, (p.nodes free).reverse ++ m.children⟩ :: rest, none, fault⟩ := by
  induction p generalizing offset free m rest with
  | done => rfl
  | leaf kind text next ih =>
    rw [Plan.events, run_cons, step, ih]
    simp [Plan.width, Plan.size, Plan.nodes, Nat.add_assoc]
  | node kind inner next ihi ihn =>
    rw [Plan.events, run_cons, run_append, run_cons, step, ihi]
    simp only [step]
    rw [ihn]
    simp [Plan.width, Plan.size, Plan.nodes, Nat.add_assoc]

/-- The root of a plan. -/
def rootOf (kind : Kind) (p : Plan) : Node := ⟨p.size, kind, Content.ofNodes (p.nodes 0)⟩

theorem run_whole (kind : Kind) (p : Plan) :
    empty.run (Plan.whole kind p) = ⟨p.width, p.size + 1, [], some (rootOf kind p), none⟩ := by
  rw [Plan.whole, run_cons, run_append, empty, step, run_events]
  simp [run, step, rootOf]

theorem run_closed {es : List Event} (h : Plan.Closed es) :
    (empty.run es).fault = none ∧ (empty.run es).pending = [] := by
  obtain rfl | ⟨kind, p, rfl⟩ := h
  · exact ⟨rfl, rfl⟩
  · rw [run_whole]
    exact ⟨rfl, rfl⟩

/-- What has started is open. -/
theorem run_opened (outer : List (Kind × Plan)) :
    (empty.run (Plan.opened outer)).fault = none ∧ (empty.run (Plan.opened outer)).root = none ∧
      (empty.run (Plan.opened outer)).pending.map (·.kind) = outer.map (·.1) := by
  induction outer with
  | nil => exact ⟨rfl, rfl, rfl⟩
  | cons frame outer ih =>
    obtain ⟨kind, p⟩ := frame
    obtain ⟨fault, root, kinds⟩ := ih
    rw [Plan.opened, run_append]
    generalize empty.run (Plan.opened outer) = b at fault root kinds
    obtain ⟨offset, free, pending, _, _⟩ := b
    subst fault root
    rw [run_cons, step, run_events]
    exact ⟨rfl, rfl, congrArg (kind :: ·) kinds⟩

end Building

namespace Tree

/-- The tree of a plan. -/
def ofPlan (identity : TreeId) (kind : Kind) (p : Plan) : Tree :=
  ofRoot identity (Building.rootOf kind p)

theorem ofEvents_whole (identity : TreeId) (kind : Kind) (p : Plan) :
    ofEvents identity (Plan.whole kind p) =
      Building.grown identity (Building.rootOf kind p) p.width := by
  rw [ofEvents, Building.run_whole]
  rfl

theorem ofEvents_whole_of_lt (identity : TreeId) (kind : Kind) {p : Plan}
    (short : p.width < 2 ^ 32) :
    ofEvents identity (Plan.whole kind p) = .ok (ofPlan identity kind p) := by
  rw [ofEvents_whole, Building.grown_of_lt short]
  rfl

/-- A finished node is not refused for a mistake in the events. -/
theorem grown_ne_unbalanced (identity : TreeId) (root : Node) (offset : Nat)
    (fault : BalanceFault) : Building.grown identity root offset ≠ .error (.unbalanced fault) := by
  intro refused
  rcases Nat.lt_or_ge offset (2 ^ 32) with short | long
  · rw [Building.grown_of_lt short] at refused
    cases refused
  · rw [Building.grown_of_le long] at refused
    obtain ⟨m, cause, e, -⟩ := (laid identity _ _).refused _ refused
    cases e

/-- **The first mistake is reported**, whatever follows it. -/
theorem ofEvents_of_mistake (identity : TreeId) {es : List Event} {fault : BalanceFault}
    (h : Mistake es fault) : ofEvents identity es = .error (.unbalanced fault) := by
  have reported : ∀ {b : Building}, b.fault = some fault →
      b.tree identity = .error (.unbalanced fault) := by
    intro b found
    rw [Building.tree, found]
  rw [ofEvents]
  cases h with
  | startAfterRoot k p kind more =>
    rw [Building.run_append, Building.run_whole]
    exact reported (Building.fault_run rfl more)
  | tokenOutside closed kind text more =>
    obtain ⟨good, shut⟩ := Building.run_closed closed
    rw [Building.run_append]
    refine reported (Building.fault_run ?_ more)
    simp [Building.step, Building.fail, good, shut]
  | unmatchedFinish closed more =>
    obtain ⟨good, shut⟩ := Building.run_closed closed
    rw [Building.run_append]
    refine reported (Building.fault_run ?_ more)
    simp [Building.step, Building.fail, good, shut]
  | leftOpen kind p outer =>
    obtain ⟨good, -, kinds⟩ := Building.run_opened ((kind, p) :: outer)
    obtain ⟨m, rest, pending, rfl, same⟩ := List.map_eq_cons_iff.1 kinds
    have count : rest.length = outer.length := by simpa using congrArg List.length same
    simp [Building.tree, good, pending, count]
  | noRoot => rfl

end Tree

/-! ### The tree of a plan -/

namespace Plan

theorem width_nodes (p : Plan) (free : NodeId) :
    (Content.ofNodes (p.nodes free)).width = p.width := by
  induction p generalizing free with
  | done => rfl
  | leaf kind text next ih => simp [nodes, Content.ofNodes, Content.width, width, ih]
  | node kind inner next ihi ihn => simp [nodes, Content.ofNodes, Content.width, width, ihi, ihn]

theorem outline_nodes (p : Plan) (free : NodeId) (start : Nat) :
    (Content.ofNodes (p.nodes free)).outline start = p.outline start := by
  induction p generalizing free start with
  | done => rfl
  | leaf kind text next ih =>
    simp [nodes, Content.ofNodes, Content.outline, Content.width, outline, ih]
  | node kind inner next ihi ihn =>
    simp [nodes, Content.ofNodes, Content.outline, outline, width_nodes, ihi, ihn]

/-- The identities count the nodes in post-order. -/
theorem ids_nodes (p : Plan) (free : NodeId) (start : Nat) (parent : Option NodeId) :
    ((Content.ofNodes (p.nodes free)).postorder start parent).map (·.id) =
      List.range' free p.size := by
  induction p generalizing free start parent with
  | done => rfl
  | leaf kind text next ih =>
    simp [nodes, Content.ofNodes, Content.postorder, size, ih, ← List.range'_succ, Nat.add_comm]
  | node kind inner next ihi ihn =>
    simp only [nodes, Content.ofNodes, Content.postorder, List.map_append, List.map_cons, ihi, ihn]
    rw [← List.range'_succ, List.range'_append_1, size]
    congr 1
    omega

/-- The node of a plan with the ranges it has. -/
def rootOutline (kind : Kind) (p : Plan) : OutlineNode := ⟨kind, ⟨0, p.width⟩, p.outline 0⟩

/-! ### Ranges in 32 bits -/

theorem wrapped_outline (p : Plan) {start : Nat} (short : start + p.width < 2 ^ 32) :
    (p.outline start).wrapped = p.outline start := by
  induction p generalizing start with
  | done => rfl
  | leaf kind text next ih =>
    rw [width, ← Nat.add_assoc] at short
    have here : start + text.utf8ByteSize < 2 ^ 32 := by omega
    rw [outline, Outline.wrapped, Outline.wrapped, Span.wrapped_of_lt (Nat.le_add_right ..) here,
      ih short]
  | node kind inner next ihi ihn =>
    rw [width, ← Nat.add_assoc] at short
    have here : start + inner.width < 2 ^ 32 := by omega
    rw [outline, Outline.wrapped, Span.wrapped_of_lt (Nat.le_add_right ..) here, ihi here,
      ihn short]

/-- The ranges of a plan whose text is short enough are as they are. -/
theorem wrapped_rootOutline (kind : Kind) {p : Plan} (short : p.width < 2 ^ 32) :
    (p.rootOutline kind).wrapped = p.rootOutline kind := by
  have inner : (p.outline 0).wrapped = p.outline 0 := p.wrapped_outline (by omega)
  rw [OutlineNode.wrapped, rootOutline, Span.wrapped_of_lt (Nat.zero_le _) short, inner]

end Plan

namespace Tree

theorem outline_ofPlan (identity : TreeId) (kind : Kind) (p : Plan) :
    (ofPlan identity kind p).outline = p.rootOutline kind := by
  simp [ofPlan, ofRoot, outline, top, Placed.span, Building.rootOf, Plan.rootOutline,
    Plan.width_nodes, Plan.outline_nodes]

theorem ids_ofPlan (identity : TreeId) (kind : Kind) (p : Plan) :
    (ofPlan identity kind p).postorder.map (·.id) = List.range (p.size + 1) := by
  simp [ofPlan, ofRoot, postorder, content, Content.postorder, Building.rootOf, Plan.ids_nodes,
    List.range_succ, List.range_eq_range']

end Tree

end SyntaxLint
