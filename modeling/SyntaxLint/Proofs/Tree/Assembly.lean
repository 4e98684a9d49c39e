import SyntaxLint.Proofs.Tree.InPlace
import SyntaxLint.Proofs.Tree.Loading
import SyntaxLint.Proofs.Tree.Plan
import SyntaxLint.Tree.Assembly

/-!
# Proofs — Trees — assembling slots

Assembling makes the mistakes that building makes.  Without one, what is stored is the outline of
the plan that is described, with its ranges in 32 bits; where the text is short enough for these,
the slots are those of the tree and pass every check.

* `Assembly.keeps_run`: assembling makes the mistakes that building makes.
* `Assembly.run_events`: what is stored of a plan.
* `Tree.assembled`: what is made of events.
-/

namespace SyntaxLint

namespace Assembly

variable {a : Assembly} {b : Building} {e : Event} {es : List Event}

theorem run_cons (a : Assembly) (e : Event) (es : List Event) :
    a.run (e :: es) = (a.step e).run es := rfl

theorem run_append (a : Assembly) (es fs : List Event) : a.run (es ++ fs) = (a.run es).run fs :=
  List.foldl_append

/-! ### Mistakes -/

/-- The same is open and the same mistake is noted. -/
structure Keeps (b : Building) (a : Assembly) : Prop where
  error : a.error = b.fault
  root : a.root.isSome = b.root.isSome
  kinds : a.stack.map (·.kind) = b.pending.map (·.kind)

theorem Keeps.step (h : Keeps b a) (e : Event) : Keeps (b.step e) (a.step e) := by
  obtain ⟨source, slots, stack, root, error⟩ := a
  obtain ⟨offset, free, pending, root', fault⟩ := b
  obtain ⟨rfl, roots, kinds⟩ := h
  cases e with
  | start kind =>
    cases root <;> cases root' <;> cases roots
    · exact ⟨rfl, rfl, congrArg (kind :: ·) kinds⟩
    · exact ⟨rfl, rfl, kinds⟩
  | token kind text =>
    cases stack with
    | nil =>
      obtain rfl : pending = [] := by simpa using kinds.symm
      exact ⟨rfl, roots, rfl⟩
    | cons n rest =>
      obtain ⟨m, rest', rfl, kind', kinds⟩ := List.map_eq_cons_iff.1 kinds.symm
      exact ⟨rfl, roots, by simp [Assembly.step, Building.step, kind', kinds]⟩
  | finish =>
    cases stack with
    | nil =>
      obtain rfl : pending = [] := by simpa using kinds.symm
      exact ⟨rfl, roots, rfl⟩
    | cons n rest =>
      obtain ⟨m, rest', rfl, -, kinds⟩ := List.map_eq_cons_iff.1 kinds.symm
      cases rest with
      | nil =>
        obtain rfl : rest' = [] := by simpa using kinds
        exact ⟨rfl, rfl, rfl⟩
      | cons outer rest =>
        obtain ⟨outer', rest', rfl, kind', kinds⟩ := List.map_eq_cons_iff.1 kinds
        exact ⟨rfl, roots, by simp [Assembly.step, Building.step, kind', kinds]⟩

/-- **Assembling makes the mistakes that building makes.** -/
theorem keeps_run (es : List Event) : Keeps (Building.empty.run es) (empty.run es) := by
  have steps : ∀ {b : Building} {a : Assembly}, Keeps b a → Keeps (b.run es) (a.run es) := by
    induction es with
    | nil => exact id
    | cons e es ih => exact fun h => ih (h.step e)
  exact steps ⟨rfl, rfl, rfl⟩

theorem Keeps.finish_eq_error {identity : TreeId} {fault : BalanceFault} (h : Keeps b a)
    (failed : b.tree identity = .error (.unbalanced fault)) :
    a.finish = .error (.tree (.unbalanced fault)) := by
  obtain ⟨source, slots, stack, root, error⟩ := a
  obtain ⟨offset, free, pending, root', fault'⟩ := b
  obtain ⟨rfl, roots, kinds⟩ := h
  cases error with
  | some f => cases failed; rfl
  | none =>
  cases stack with
  | nil =>
    obtain rfl : pending = [] := by simpa using kinds.symm
    cases root <;> cases root' <;> cases roots
    · cases failed
      rfl
    · exact absurd failed (Tree.grown_ne_unbalanced _ _ _ _)
  | cons n rest =>
    obtain ⟨m, rest', rfl, kind, kinds⟩ := List.map_eq_cons_iff.1 kinds.symm
    have count : rest.length = rest'.length := by simpa using (congrArg List.length kinds).symm
    simp only [Building.tree, Except.error.injEq, TreeError.unbalanced.injEq] at failed
    simp [Assembly.finish, ← failed, kind, count]

end Assembly

/-! ### Plans -/

namespace Outline

@[simp] theorem length_postorder_wrapped (o : Outline) :
    o.wrapped.postorder.length = o.postorder.length := by
  induction o with
  | done => rfl
  | node kind s children next ihc ihn => simp [wrapped, ihc, ihn]

/-- Where the siblings of a run are stored does not depend on their ranges. -/
@[simp] theorem places_wrapped (o : Outline) (free : NodeId) :
    o.wrapped.places free = o.places free := by
  induction o generalizing free with
  | done => rfl
  | node kind s children next _ ihn => simp [wrapped, places, ihn]

end Outline

/-- The text of a plan. -/
def Plan.text : Plan → String
  | done => ""
  | leaf _ text next => text ++ next.text
  | node _ inner next => inner.text ++ next.text

theorem Plan.utf8ByteSize_text (p : Plan) : p.text.utf8ByteSize = p.width := by
  induction p with
  | done => rfl
  | leaf kind s next ih => simp [text, width, ih]
  | node kind inner next ihi ihn => simp [text, width, ihi, ihn]

namespace Assembly

open Arena (push)

/-- **The events of siblings** store them as those of the outline of the plan, with its ranges in 32
bits. -/
theorem run_events (p : Plan) (source : String) (slots : Array Slot) (n : OpenSlot)
    (rest : List OpenSlot) (error : Option BalanceFault) :
    run ⟨source, slots, n :: rest, none, error⟩ p.events =
      let below := push slots (p.outline source.utf8ByteSize).wrapped
      ⟨source ++ p.text, below.2, { n with children := n.children ++ below.1 } :: rest, none,
        error⟩ := by
  induction p generalizing source slots n rest with
  | done => simp [run, Plan.events, Plan.text, Plan.outline, Outline.wrapped, push]
  | leaf kind text next ih =>
    rw [Plan.events, run_cons, step]
    simp only [store]
    rw [ih]
    simp [Plan.text, Plan.outline, Outline.wrapped, Span.wrapped, push, offset,
      String.append_assoc]
  | node kind inner next ihi ihn =>
    rw [Plan.events, run_cons, run_append, run_cons, step]
    simp only [Option.isSome_none, Bool.false_eq_true, if_false]
    rw [ihi]
    simp only [step, store]
    rw [ihn]
    simp [Plan.text, Plan.outline, Outline.wrapped, Span.wrapped, push, offset,
      String.append_assoc, Plan.utf8ByteSize_text]

theorem run_whole (kind : Kind) (p : Plan) :
    empty.run (Plan.whole kind p) =
      let below := push #[] (p.outline 0).wrapped
      ⟨p.text, below.2.push ⟨kind, Span.wrapped ⟨0, p.width⟩, none, below.1, true⟩, [],
        some below.2.size, none⟩ := by
  rw [Plan.whole, run_cons, run_append, empty, step]
  simp only [Option.isSome_none, Bool.false_eq_true, if_false]
  rw [run_events]
  simp [run, step, store, offset, Span.wrapped, Plan.utf8ByteSize_text]

/-- The end of a plan is that of loading its outline. -/
theorem finish_whole (kind : Kind) (p : Plan) :
    (empty.run (Plan.whole kind p)).finish = Arena.load p.text (p.rootOutline kind).wrapped := by
  rw [run_whole]
  rfl

end Assembly

/-! ### The tree of a plan -/

namespace Tree

theorem numbered_ofPlan (identity : TreeId) (kind : Kind) (p : Plan) :
    (ofPlan identity kind p).Numbered := by
  have finishes : (Building.empty.run (Plan.whole kind p)).Finishes (Building.rootOf kind p) := by
    rw [Building.run_whole]
    exact ⟨rfl, rfl, rfl⟩
  exact finishes.numbered

theorem source_ofPlan (identity : TreeId) (kind : Kind) (p : Plan) :
    (ofPlan identity kind p).source = p.text := by
  have text : ∀ (q : Plan) (free : NodeId), (Content.ofNodes (q.nodes free)).text = q.text := by
    intro q
    induction q with
    | done => exact fun _ => Content.text_tail _
    | leaf kind s next ih => simp [Plan.nodes, Content.ofNodes, Plan.text, ih]
    | node kind inner next ihi ihn => simp [Plan.nodes, Content.ofNodes, Plan.text, ihi, ihn]
  simp [source_eq, ofPlan, ofRoot, Building.rootOf, text]

theorem length_postorder_ofPlan (identity : TreeId) (kind : Kind) (p : Plan) :
    (ofPlan identity kind p).postorder.length = p.size + 1 := by
  simpa using congrArg List.length (ids_ofPlan identity kind p)

/-- The slots of the tree of a plan. -/
theorem laid_ofPlan (identity : TreeId) (kind : Kind) (p : Plan) :
    Arena.laid p.text (p.rootOutline kind) = (ofPlan identity kind p).arena := by
  have count := length_postorder_ofPlan identity kind p
  rw [← source_ofPlan identity kind p, ← outline_ofPlan identity kind p]
  exact Arena.laid_outline (numbered_ofPlan identity kind p)
    (by rw [ids_ofPlan, count]) count.symm

/-- The outline of a plan is loaded as the tree of the plan. -/
theorem load_rootOutline (identity : TreeId) (kind : Kind) (p : Plan) :
    Arena.load p.text (p.rootOutline kind) =
      .ok ((ofPlan identity kind p).arena, (ofPlan identity kind p).root.id) := by
  have valid : (p.rootOutline kind).check p.text = .ok () := by
    have h := (ofPlan identity kind p).validate_eq_ok
    rwa [validate, outline_ofPlan, source_ofPlan] at h
  obtain ⟨u, laid⟩ := exists_ofOutline_iff.2 valid
  rw [Arena.load_eq identity, laid]
  have arena : u.arena = (ofPlan identity kind p).arena := by
    rw [← Arena.laid_eq_arena laid, laid_ofPlan]
  have root : u.root.id = (ofPlan identity kind p).root.id := by
    have last := (of_ofOutline laid).2.2.2
    simp [OutlineNode.postorder, Plan.rootOutline, Plan.length_postorder_outline] at last
    rw [last]
    rfl
  simp only [Except.map, Except.mapError, arena, root]

/-- **The slots of a plan are told their parents and checked**, whether or not offsets reach the end
of its text. -/
theorem finish_whole (identity : TreeId) (kind : Kind) (p : Plan) :
    (Assembly.empty.run (Plan.whole kind p)).finish =
      ((ofEvents identity (Plan.whole kind p)).map fun t => (t.arena, t.root.id)).mapError
        .tree := by
  rw [Assembly.finish_whole, ofEvents_whole]
  by_cases short : p.width < 2 ^ 32
  · rw [Plan.wrapped_rootOutline kind short, load_rootOutline identity,
      Building.grown_of_lt short]
    rfl
  · have long : Building.grown identity (Building.rootOf kind p) p.width =
        ofOutline identity (ofPlan identity kind p).source
          (ofPlan identity kind p).outline.wrapped := Building.grown_of_le (Nat.not_lt.1 short)
    rw [long, source_ofPlan, outline_ofPlan, Arena.load_eq identity]

/-- Before they are told, the slots have no parents and are else those of the tree. -/
theorem slots_whole (identity : TreeId) (kind : Kind) {p : Plan} (short : p.width < 2 ^ 32)
    (id : NodeId) : (Assembly.empty.run (Plan.whole kind p)).slots[id]? =
      ((ofPlan identity kind p).arena.slot? id).map (·.told 0) := by
  have stored := (Arena.push_children p.text (p.rootOutline kind)).2
  have slots : ((Assembly.empty.run (Plan.whole kind p)).slots)[id]? =
      (Arena.filled p.text ((p.rootOutline kind).alone.entries 0 none) 0).slot? id := by
    have ranges := Plan.wrapped_rootOutline kind short
    rw [OutlineNode.wrapped, Plan.rootOutline, OutlineNode.mk.injEq] at ranges
    rw [← stored, Assembly.run_whole, ranges.2.1, ranges.2.2]
    rfl
  rw [slots, Arena.slot?_filled, ← laid_ofPlan, Arena.slot?_laid, Option.map_map]
  rfl

end Tree

/-! ### What an event stores -/

namespace Event

/-- Whether an identity is taken at an event: that of a token, or of a node that finishes. -/
def takes : Event → Bool
  | start _ => false
  | token _ _ => true
  | finish => true

/-- The number of identities that are taken. -/
def taken (es : List Event) : Nat := es.countP (·.takes)

variable (kind : Kind) (text : String) (es fs : List Event)

@[simp] theorem taken_nil : taken [] = 0 := rfl

@[simp] theorem taken_start : taken (.start kind :: es) = taken es := by
  simp [taken, takes]

@[simp] theorem taken_token : taken (.token kind text :: es) = taken es + 1 := by
  simp [taken, takes]

@[simp] theorem taken_finish : taken (.finish :: es) = taken es + 1 := by
  simp [taken, takes]

@[simp] theorem taken_append : taken (es ++ fs) = taken es + taken fs := List.countP_append

end Event

@[simp] theorem Plan.taken_events (p : Plan) : Event.taken p.events = p.size := by
  induction p with
  | done => rfl
  | leaf kind text next ih => simp [events, size, ih, Nat.add_comm]
  | node kind inner next ihi ihn =>
    simp [events, size, ihi, ihn]
    omega

@[simp] theorem Plan.width_events (p : Plan) : Event.width p.events = p.width := by
  induction p with
  | done => rfl
  | leaf kind text next ih => simp [events, width, ih]
  | node kind inner next ihi ihn => simp [events, width, ihi, ihn]

namespace Assembly

variable {a : Assembly} {es : List Event} {id : NodeId} {s : Slot}

theorem error_step {fault : BalanceFault} (h : a.error = some fault) (e : Event) :
    (a.step e).error = some fault := by
  cases e with
  | start kind => rw [step]; split <;> simp [fail, h]
  | token kind text => rw [step]; split <;> simp [fail, store, h]
  | finish =>
    rw [step]
    split
    · simp [fail, h]
    · split <;> exact h

/-- The first mistake is not forgotten. -/
theorem error_run {fault : BalanceFault} (h : a.error = some fault) (es : List Event) :
    (a.run es).error = some fault := by
  induction es generalizing a with
  | nil => exact h
  | cons e es ih => exact ih (error_step h e)

/-- No mistake was made before if none was made in the end. -/
theorem error_eq_none (h : (a.run es).error = none) : a.error = none := by
  cases made : a.error with
  | none => rfl
  | some fault => cases (error_run made es).symm.trans h

theorem length_step (a : Assembly) (e : Event) :
    (a.step e).source.utf8ByteSize = a.source.utf8ByteSize + Event.width [e] := by
  cases e with
  | start kind => rw [step]; split <;> simp [fail]
  | token kind text => rw [step]; split <;> simp [fail, store]
  | finish =>
    rw [step]
    split
    · simp [fail]
    · split <;> simp [store]

/-- The text is that of the events, mistakes or not. -/
theorem length_run (a : Assembly) (es : List Event) :
    (a.run es).source.utf8ByteSize = a.source.utf8ByteSize + Event.width es := by
  induction es generalizing a with
  | nil => rfl
  | cons e es ih =>
    rw [run_cons, ih, length_step, Nat.add_assoc, ← Event.width_append, List.singleton_append]

/-- An event that is no mistake stores a slot just if an identity is taken at it. -/
theorem size_step {e : Event} (h : (a.step e).error = none) :
    (a.step e).slots.size = a.slots.size + Event.taken [e] := by
  cases e with
  | start kind => rw [step]; split <;> simp [fail]
  | token kind text => rw [step]; split <;> simp [fail, store]
  | finish =>
    rw [step] at h ⊢
    split at h
    · simp [fail] at h
    · split <;> simp [store]

theorem size_run (h : (a.run es).error = none) :
    (a.run es).slots.size = a.slots.size + Event.taken es := by
  induction es generalizing a with
  | nil => rfl
  | cons e es ih =>
    rw [run_cons] at h ⊢
    rw [ih h, size_step (error_eq_none h), Nat.add_assoc, ← Event.taken_append,
      List.singleton_append]

theorem getElem?_step (h : a.slots[id]? = some s) (e : Event) :
    (a.step e).slots[id]? = some s := by
  have pushed : ∀ s', (a.slots.push s')[id]? = some s := by
    intro s'
    obtain ⟨lt, -⟩ := Array.getElem?_eq_some_iff.1 h
    rw [Array.getElem?_push, if_neg (Nat.ne_of_lt lt), h]
  cases e with
  | start kind => rw [step]; split <;> exact h
  | token kind text => rw [step]; split <;> exact pushed _
  | finish =>
    rw [step]
    split
    · exact h
    · split <;> exact pushed _

/-- What is stored stays. -/
theorem getElem?_run (h : a.slots[id]? = some s) (es : List Event) :
    (a.run es).slots[id]? = some s := by
  induction es generalizing a with
  | nil => exact h
  | cons e es ih => exact ih (getElem?_step h e)

variable {pre post : List Event} {kind : Kind}

/-- Before an event the text and the slots are those of the events so far. -/
theorem size_length_run (good : (empty.run (pre ++ post)).error = none) :
    (empty.run pre).error = none ∧ (empty.run pre).slots.size = Event.taken pre ∧
      (empty.run pre).source.utf8ByteSize = Event.width pre := by
  rw [run_append] at good
  have before := error_eq_none good
  refine ⟨before, ?_, ?_⟩
  · rw [size_run before]
    exact Nat.zero_add _
  · rw [length_run]
    exact Nat.zero_add _

/-- The slot of a token. -/
theorem getElem?_token {text : String}
    (good : (empty.run (pre ++ .token kind text :: post)).error = none) :
    (empty.run (pre ++ .token kind text :: post)).slots[Event.taken pre]? =
      some ⟨kind, Span.wrapped ⟨Event.width pre, Event.width pre + text.utf8ByteSize⟩, none, [],
        true⟩ := by
  obtain ⟨-, size, length⟩ := size_length_run good
  rw [run_append, run_cons]
  generalize empty.run pre = a at size length
  refine getElem?_run ?_ post
  rw [step]
  split <;> simp [fail, store, ← size, ← length, offset, Span.wrapped]

theorem push_outline (slots : Array Slot) (p : Plan) (start : Nat) :
    (Arena.push slots (p.outline start).wrapped).1 = (p.outline start).places slots.size ∧
      (Arena.push slots (p.outline start).wrapped).2.size = slots.size + p.size := by
  have count := congrArg List.length ((p.outline start).wrapped.map_fst_entries slots.size none)
  rw [List.length_map, List.length_range', Outline.length_postorder_wrapped,
    p.length_postorder_outline] at count
  rw [Arena.push_eq slots _ none, Outline.places_wrapped]
  exact ⟨rfl, by simp [count]⟩

/-- The slot of a node. -/
theorem getElem?_whole {p : Plan}
    (good : (empty.run (pre ++ (Plan.whole kind p ++ post))).error = none) :
    (empty.run (pre ++ (Plan.whole kind p ++ post))).slots[Event.taken pre + p.size]? =
      some ⟨kind, Span.wrapped ⟨Event.width pre, Event.width pre + p.width⟩, none,
        (p.outline (Event.width pre)).places (Event.taken pre), true⟩ := by
  obtain ⟨fine, size, length⟩ := size_length_run good
  rw [run_append, Plan.whole, List.cons_append, run_cons] at good ⊢
  generalize empty.run pre = a at fine size length good
  have started := error_eq_none good
  obtain ⟨source, slots, stack, root, error⟩ := a
  obtain rfl : error = none := fine
  obtain rfl : root = none := by
    cases root with
    | none => rfl
    | some id => simp [step, fail] at started
  have text : source.utf8ByteSize = Event.width pre := length
  obtain ⟨places, count⟩ := push_outline slots p (Event.width pre)
  rw [List.append_assoc, run_append, List.singleton_append, run_cons]
  refine getElem?_run ?_ post
  rw [step]
  simp only [Option.isSome_none, Bool.false_eq_true, if_false]
  rw [run_events]
  have last : ∀ s, ((Arena.push slots (p.outline (Event.width pre)).wrapped).2.push s)[
      Event.taken pre + p.size]? = some s := by
    intro s
    have here : Event.taken pre + p.size =
        (Arena.push slots (p.outline (Event.width pre)).wrapped).2.size := by rw [count, ← size]
    rw [here]
    exact Array.getElem?_push_size
  simp only [step, text, places]
  split <;> exact (last _).trans
    (by simp [offset, Span.wrapped, Plan.utf8ByteSize_text, text, ← size])

end Assembly

/-! ### Trees -/

/-- What a description of one node says of its tree: the source is the text of the tokens in order;
the nodes are nested and of the kinds as they are described; a token and a node that finishes are
the nodes of the identities that count both kinds of events, with the range of the text that is
given between their start and their end. -/
structure Tree.Described (events : List Event) (t : Tree) : Prop where
  source : t.source.toList = events.flatMap Event.chars
  outline : ∀ kind p, events = Plan.whole kind p → t.outline = p.rootOutline kind
  size : t.size = Event.taken events
  token : ∀ pre kind text post, events = pre ++ .token kind text :: post →
    ∃ n, t.node? (Event.taken pre) = some n ∧ n.kind = kind ∧
      n.span = ⟨Event.width pre, Event.width pre + text.utf8ByteSize⟩ ∧ n.children = []
  node : ∀ pre kind p post, events = pre ++ (Plan.whole kind p ++ post) →
    ∃ n, t.node? (Event.taken (pre ++ .start kind :: p.events)) = some n ∧ n.kind = kind ∧
      n.span = ⟨Event.width pre, Event.width (pre ++ .start kind :: p.events)⟩ ∧
      n.children.map (·.id) = (p.outline (Event.width pre)).places (Event.taken pre)

/-- What is made of events: a tree if they describe one node, and else an error for the first
mistake in them. -/
structure Tree.Assembled (events : List Event) (made : Except TreeError Tree) : Prop where
  ok_iff : (∃ t, made = .ok t) ↔ ∃ kind p, events = Plan.whole kind p
  error_iff : ∀ e, made = .error e ↔ ∃ fault, e = .unbalanced fault ∧ Mistake events fault
  described : ∀ t, made = .ok t → Described events t

namespace Tree

variable {events : List Event} {kind : Kind} {p : Plan}

/-- A slot that is stored is that of a node, but for its parent; and its range is that of the
node, if offsets reach its end. -/
theorem exists_node_of_slots (identity : TreeId) (short : p.width < 2 ^ 32) {id : NodeId}
    {kind' : Kind} {start width : Nat} {children : List NodeId} (reached : start + width < 2 ^ 32)
    (h : (Assembly.empty.run (Plan.whole kind p)).slots[id]? =
      some ⟨kind', Span.wrapped ⟨start, start + width⟩, none, children, true⟩) :
    ∃ n, (ofPlan identity kind p).node? id = some n ∧ n.kind = kind' ∧
      n.span = ⟨start, start + width⟩ ∧ n.children.map (·.id) = children := by
  rw [slots_whole identity kind short id] at h
  obtain ⟨s, found, same⟩ := Option.map_eq_some_iff.1 h
  simp only [Slot.told, Slot.mk.injEq] at same
  obtain ⟨rfl, span, -, rfl, alive⟩ := same
  rw [Span.wrapped_of_lt (Nat.le_add_right ..) reached] at span
  have numbered := numbered_ofPlan identity kind p
  have live : (ofPlan identity kind p).arena.live id = .ok s :=
    Arena.live_eq_ok_iff.2 ⟨found, alive⟩
  rw [(Arena.holds_arena numbered).live_eq numbered] at live
  cases found' : (ofPlan identity kind p).live id with
  | error e => rw [found'] at live; cases live
  | ok n =>
    rw [found'] at live
    cases live
    exact ⟨n, live_eq_ok_iff.1 found', rfl, span, rfl⟩

theorem described_ofPlan (identity : TreeId) (kind : Kind) (short : p.width < 2 ^ 32) :
    Described (Plan.whole kind p) (ofPlan identity kind p) := by
  have good : (Assembly.empty.run (Plan.whole kind p)).error = none := by
    rw [Assembly.run_whole]
  have total : Event.width (Plan.whole kind p) < 2 ^ 32 := by simpa [Plan.whole] using short
  constructor
  case source => exact source_ofEvents (ofEvents_whole_of_lt identity kind short)
  case outline =>
    intro kind' p' same
    have short' : p'.width < 2 ^ 32 := by
      rw [same] at total
      simpa [Plan.whole] using total
    have trees := ofEvents_whole_of_lt identity kind short
    rw [same, ofEvents_whole_of_lt identity kind' short', Except.ok.injEq] at trees
    rw [← trees, outline_ofPlan]
  case size =>
    rw [size_eq_length_nodes, nodes, ← (Content.postorder_perm_preorder _ 0 none).length_eq]
    refine (length_postorder_ofPlan identity kind p).trans ?_
    simp [Plan.whole]
  case token =>
    intro pre k text post split
    have stored := Assembly.getElem?_token (split ▸ good)
    rw [← split] at stored
    have reached : Event.width pre + text.utf8ByteSize < 2 ^ 32 := by
      rw [split, Event.width_append, Event.width_token] at total
      omega
    obtain ⟨n, found, kind', span, children⟩ := exists_node_of_slots identity short reached stored
    exact ⟨n, found, kind', span, List.map_eq_nil_iff.1 children⟩
  case node =>
    intro pre k q post split
    have stored := Assembly.getElem?_whole (split ▸ good)
    rw [← split] at stored
    have reached : Event.width pre + q.width < 2 ^ 32 := by
      rw [split, Event.width_append, Event.width_append] at total
      simp only [Plan.whole, Event.width_start, Event.width_append, Plan.width_events] at total
      omega
    obtain ⟨n, found, kind', span, children⟩ := exists_node_of_slots identity short reached stored
    refine ⟨n, ?_, kind', ?_, children⟩
    · simpa using found
    · simpa using span

theorem assembled_whole (identity : TreeId) (kind : Kind) (short : p.width < 2 ^ 32) :
    Assembled (Plan.whole kind p) (ofEvents identity (Plan.whole kind p)) := by
  have built := ofEvents_whole_of_lt identity kind short
  constructor
  case ok_iff => exact ⟨fun _ => ⟨kind, p, rfl⟩, fun _ => ⟨_, built⟩⟩
  case error_iff =>
    rw [built]
    refine fun e => ⟨nofun, ?_⟩
    rintro ⟨fault, -, mistake⟩
    cases built.symm.trans (ofEvents_of_mistake identity mistake)
  case described =>
    intro t made
    obtain rfl := Except.ok.inj (built.symm.trans made)
    exact described_ofPlan identity kind short

theorem assembled_of_mistake (identity : TreeId) {fault : BalanceFault}
    (short : Event.width events < 2 ^ 32) (mistake : Mistake events fault) :
    Assembled events (ofEvents identity events) := by
  have failed := ofEvents_of_mistake identity mistake
  constructor
  case ok_iff =>
    constructor
    · rintro ⟨t, made⟩
      cases failed.symm.trans made
    · rintro ⟨kind, p, rfl⟩
      have short : p.width < 2 ^ 32 := by simpa [Plan.whole] using short
      cases failed.symm.trans (ofEvents_whole_of_lt identity kind short)
  case error_iff =>
    intro e
    rw [failed]
    constructor
    · rintro ⟨⟩
      exact ⟨fault, rfl, mistake⟩
    · rintro ⟨fault', rfl, mistake'⟩
      rw [← failed, ofEvents_of_mistake identity mistake']
  case described =>
    intro t made
    cases failed.symm.trans made

/-- **What is made of events.**  Slots are made into what is built, whatever the events are; the
first mistake is reported, however long the text is; and where offsets reach the end of the text,
events are a tree or a mistake and no check refuses them. -/
theorem assembled (identity : TreeId) (events : List Event) :
    (Assembly.empty.run events).finish =
      ((ofEvents identity events).map fun t => (t.arena, t.root.id)).mapError .tree ∧
    (∀ fault, Mistake events fault → ofEvents identity events = .error (.unbalanced fault)) ∧
    (Event.width events < 2 ^ 32 → Assembled events (ofEvents identity events)) := by
  refine ⟨?_, fun fault => ofEvents_of_mistake identity, fun short => ?_⟩
  · obtain ⟨kind, p, rfl⟩ | ⟨fault, mistake⟩ := Plan.whole_or_mistake events
    · exact finish_whole identity kind p
    · have failed := ofEvents_of_mistake identity mistake
      rw [failed]
      exact (Assembly.keeps_run events).finish_eq_error failed
  · obtain ⟨kind, p, rfl⟩ | ⟨fault, mistake⟩ := Plan.whole_or_mistake events
    · exact assembled_whole identity kind (by simpa [Plan.whole] using short)
    · exact assembled_of_mistake identity short mistake

/-- An element with a text, and the same with another token behind it. -/
theorem assembled_of_token_outside :
    let events : List Event := [.start .element, .token .text "aé", .finish]
    let t : Tree := ⟨0, "", ⟨1, .element, .node "" 0 .text (.tail "aé") (.tail "")⟩, ""⟩
    (Described events t ∧
      (Assembly.empty.run events).finish = .ok (t.arena, 1)) ∧
    ofEvents 0 (events ++ [.token .text "b", .finish]) =
      .error (.unbalanced (.tokenOutside .text)) := by
  intro events t
  obtain ⟨stored, -, short⟩ := assembled 0 events
  have built : ofEvents 0 events = .ok t := rfl
  rw [built] at stored
  refine ⟨⟨(short (by decide +kernel)).described t built, stored⟩, ?_⟩
  refine (assembled 0 _).2.1 _ (.tokenOutside (.inr ⟨.element, .leaf .text "aé" .done, rfl⟩) ..)

end Tree

end SyntaxLint
