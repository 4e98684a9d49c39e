import SyntaxLint.Proofs.Tree.Fragment
import SyntaxLint.Proofs.Tree.Laying

/-!
# Proofs — Trees — the source of a built tree

A mistake in a sequence of events is not forgotten.  As long as none is made, the text of what is
built is the text of the tokens so far, in order; so the source of a tree that is built is the text
of all its tokens.

* `Building.chars_step`: one event.
* `Building.offset_run`: the length of the text.
* `Tree.source_ofEvents`: the source of a tree.
* `Tree.ofEvents_eq_ok_iff`: the tree itself, where offsets reach.
-/

namespace SyntaxLint

/-- The text of an event: that of a token. -/
def Event.chars : Event → List Char
  | .token _ text => text.toList
  | _ => []

/-- The text of the finished children of an open node. -/
def OpenNode.chars (m : OpenNode) : List Char :=
  m.children.reverse.flatMap (·.body.text.toList)

theorem Content.toList_text_ofNodes (ns : List Node) :
    (ofNodes ns).text.toList = ns.flatMap (·.body.text.toList) := by
  induction ns with
  | nil => simp [ofNodes]
  | cons n ns ih => simp [ofNodes, ih]

namespace Building

variable {b : Building} {e : Event}

/-- The text built so far. -/
def chars (b : Building) : List Char :=
  b.pending.reverse.flatMap OpenNode.chars ++ (b.root.map (·.body.text.toList)).getD []

/-- No mistake was made, and nothing is open once the root is finished. -/
structure Sound (b : Building) : Prop where
  fault : b.fault = none
  root : b.root.isSome → b.pending = []

theorem fault_step {fault : BalanceFault} (h : b.fault = some fault) (e : Event) :
    (b.step e).fault = some fault := by
  cases e with
  | start kind =>
    rw [step]
    split <;> simp [fail, h]
  | token kind text =>
    rw [step]
    split <;> simp [fail, h]
  | finish =>
    rw [step]
    split
    · simp [fail, h]
    · split <;> exact h

/-- The first mistake is not forgotten. -/
theorem fault_run {fault : BalanceFault} (h : b.fault = some fault) (es : List Event) :
    (b.run es).fault = some fault := by
  induction es generalizing b with
  | nil => exact h
  | cons e es ih => exact ih (fault_step h e)

/-- **One event adds its text to what is built**, if it is no mistake. -/
theorem chars_step (h : b.Sound) (good : (b.step e).fault = none) :
    (b.step e).Sound ∧ (b.step e).chars = b.chars ++ e.chars := by
  obtain ⟨offset, free, pending, root, fault⟩ := b
  obtain ⟨rfl, closed⟩ := h
  cases e with
  | start kind =>
    cases root with
    | some r => simp [step, fail] at good
    | none => exact ⟨⟨rfl, by simp [step]⟩, by simp [step, chars, OpenNode.chars, Event.chars]⟩
  | token kind text =>
    cases pending with
    | nil => simp [step, fail] at good
    | cons m rest =>
      obtain rfl : root = none := by cases root <;> simp_all
      refine ⟨⟨rfl, by simp [step]⟩, ?_⟩
      simp [step, chars, OpenNode.chars, Event.chars]
  | finish =>
    cases pending with
    | nil => simp [step, fail] at good
    | cons m rest =>
      obtain rfl : root = none := by cases root <;> simp_all
      cases rest with
      | nil =>
        refine ⟨⟨rfl, by simp [step]⟩, ?_⟩
        simp [step, chars, OpenNode.chars, Event.chars, Content.toList_text_ofNodes]
      | cons k rest =>
        refine ⟨⟨rfl, by simp [step]⟩, ?_⟩
        simp [step, chars, OpenNode.chars, Event.chars, Content.toList_text_ofNodes]

/-- Any sequence of events adds its text, if no mistake is made. -/
theorem chars_run (h : b.Sound) (es : List Event) (good : (b.run es).fault = none) :
    (b.run es).chars = b.chars ++ es.flatMap Event.chars := by
  induction es generalizing b with
  | nil => simp [run]
  | cons e es ih =>
    have good' : (b.step e).fault = none := by
      cases f : (b.step e).fault with
      | none => rfl
      | some fault =>
        rw [run_cons, fault_run f es] at good
        cases good
    obtain ⟨sound, text⟩ := chars_step h good'
    rw [List.flatMap_cons, ← List.append_assoc, ← text]
    exact ih sound good

end Building

/-- The text of the node that events describe. -/
theorem Building.Finishes.chars {events : List Event} {root : Node}
    (h : (empty.run events).Finishes root) :
    root.body.text.toList = events.flatMap Event.chars := by
  have sound : empty.Sound := ⟨rfl, by simp [empty]⟩
  have text := chars_run sound events h.fault
  rw [Building.chars, h.pending, h.root] at text
  simpa [Building.chars, empty] using text

@[simp] theorem Tree.source_ofRoot (identity : TreeId) (root : Node) :
    (ofRoot identity root).source = root.body.text := by
  simp [source_eq, ofRoot]

/-- **The source of a tree is the text of its tokens.** -/
theorem Tree.source_ofEvents {identity : TreeId} {events : List Event} {t : Tree}
    (h : ofEvents identity events = .ok t) :
    t.source.toList = events.flatMap Event.chars := by
  obtain ⟨root, built, grown⟩ := Building.tree_eq_ok_iff.1 h
  rw [← built.chars]
  rcases Nat.lt_or_ge (Building.empty.run events).offset (2 ^ 32) with short | long
  · rw [Building.grown_of_lt short] at grown
    rw [← Except.ok.inj grown, source_ofRoot]
  · rw [Building.grown_of_le long] at grown
    rw [(of_ofOutline grown).1, source_ofRoot]

theorem Tree.ofOutline_copy {identity : TreeId} {source : String} {n : OutlineNode} {t : Tree}
    (h : ofOutline identity source n = .ok t) (j : TreeId) :
    ofOutline j source n = .ok (t.copy j) := by
  unfold ofOutline at h ⊢
  cases check : n.check source with
  | error e => simp [check, bind, Except.bind] at h
  | ok u =>
    simp only [check, bind, Except.bind, pure, Except.pure, Except.ok.injEq] at h ⊢
    rw [← h]
    rfl

/-- The tree of events, whatever the identity of the tree. -/
theorem Tree.ofEvents_copy {identity : TreeId} {events : List Event} {t : Tree}
    (h : ofEvents identity events = .ok t) (j : TreeId) : ofEvents j events = .ok (t.copy j) := by
  obtain ⟨root, built, grown⟩ := Building.tree_eq_ok_iff.1 h
  refine Building.tree_eq_ok_iff.2 ⟨root, built, ?_⟩
  rcases Nat.lt_or_ge (Building.empty.run events).offset (2 ^ 32) with short | long
  · rw [Building.grown_of_lt short] at grown ⊢
    rw [← Except.ok.inj grown]
    rfl
  · rw [Building.grown_of_le long] at grown ⊢
    exact ofOutline_copy grown j

/-! ### The length of the text -/

namespace Event

/-- The length of the text of events. -/
def width (es : List Event) : Nat := Text.bytes (es.flatMap chars)

variable (kind : Kind) (text : String) (es fs : List Event)

@[simp] theorem width_nil : width [] = 0 := rfl

@[simp] theorem width_start : width (.start kind :: es) = width es := by
  simp [width, chars]

@[simp] theorem width_token : width (.token kind text :: es) = text.utf8ByteSize + width es := by
  simp [width, chars, Text.bytes_toList]

@[simp] theorem width_finish : width (.finish :: es) = width es := by
  simp [width, chars]

@[simp] theorem width_append : width (es ++ fs) = width es + width fs := by
  simp [width]

end Event

theorem Building.offset_step (b : Building) (e : Event) :
    (b.step e).offset = b.offset + Event.width [e] := by
  cases e with
  | start kind => rw [step]; split <;> simp [fail]
  | token kind text => rw [step]; split <;> simp [fail]
  | finish =>
    rw [step]
    split
    · simp [fail]
    · split <;> simp

/-- The length grows by that of every token, mistakes or not. -/
theorem Building.offset_run (b : Building) (es : List Event) :
    (b.run es).offset = b.offset + Event.width es := by
  induction es generalizing b with
  | nil => rfl
  | cons e es ih =>
    rw [run_cons, ih, offset_step, Nat.add_assoc, ← Event.width_append, List.singleton_append]

/-- **The tree of events whose text is short enough for offsets** is the node that is built. -/
theorem Tree.ofEvents_eq_ok_iff {identity : TreeId} {events : List Event} {t : Tree}
    (short : Event.width events < 2 ^ 32) :
    ofEvents identity events = .ok t ↔
      ∃ root, (Building.empty.run events).Finishes root ∧ ofRoot identity root = t := by
  have offset : (Building.empty.run events).offset < 2 ^ 32 := by
    rw [Building.offset_run]
    simpa [Building.empty] using short
  simp only [ofEvents, Building.tree_eq_ok_iff, Building.grown_of_lt offset, Except.ok.injEq]

/-- The text of the node that events describe is as long as theirs. -/
theorem Building.Finishes.width {events : List Event} {root : Node}
    (h : (empty.run events).Finishes root) : root.body.width = Event.width events := by
  rw [Event.width, ← h.chars, Content.width_eq, Text.bytes_toList]

end SyntaxLint
