import Mathlib.Algebra.Group.Nat.Defs
import SyntaxLint.Proofs.Tree.Lookup
import SyntaxLint.Tree.Edit

/-!
# Proofs — Trees — what an edit does

When an edit is made, and which change of one node it is.

* `Tree.replaceText_eq_ok_iff`, `Tree.removeRange_eq_ok_iff`: the two edits.
* `Tree.Numbered.tryEdit`: an edit, made or refused, keeps identities distinct.
-/

namespace SyntaxLint

namespace Tree

variable {t t' : Tree} {id : NodeId} {n p : Placed} {s : Span}

theorem live_eq_ok_iff : t.live id = .ok n ↔ t.node? id = some n := by
  unfold live
  cases t.node? id <;> simp

theorem childIndex_eq_ok_iff {i : Nat} :
    childIndex p id = .ok i ↔ p.children.findIdx? (·.id == id) = some i := by
  unfold childIndex
  cases p.children.findIdx? (·.id == id) <;> simp

/-- What becomes of the text of a live node. -/
theorem replaceText_eq (found : t.node? id = some n) (text : String) : t.replaceText id text =
    if !n.isLeaf then .error (.invalidEdit (.notLeaf n.kind n.span))
    else if 2 ^ 32 ≤ t.lengthWith n text then .error (.invalidEdit .tooLong)
    else .ok (t.alter id fun _ => .tail text, ⟨n.start, n.start + text.utf8ByteSize⟩) := by
  rw [replaceText, live_eq_ok_iff.2 found]
  rfl

/-- A node with children has no text of its own that could be replaced. -/
theorem replaceText_of_composite {text : String} (found : t.node? id = some n)
    (composite : n.isLeaf = false) :
    t.replaceText id text = .error (.invalidEdit (.notLeaf n.kind n.span)) := by
  rw [replaceText_eq found, composite]
  rfl

/-- A text that makes the source too long is refused. -/
theorem replaceText_of_long {text : String} (found : t.node? id = some n) (leaf : n.isLeaf = true)
    (long : 2 ^ 32 ≤ t.lengthWith n text) :
    t.replaceText id text = .error (.invalidEdit .tooLong) := by
  rw [replaceText_eq found, leaf]
  exact if_pos long

/-- The text of a live leaf is replaced, if the source does not become too long. -/
theorem replaceText_eq_ok_iff {text : String} :
    t.replaceText id text = .ok (t', s) ↔ ∃ n, t.node? id = some n ∧ n.isLeaf = true ∧
      t.lengthWith n text < 2 ^ 32 ∧ t' = t.alter id (fun _ => .tail text) ∧
      s = ⟨n.start, n.start + text.utf8ByteSize⟩ := by
  cases found : t.node? id with
  | none => simp [replaceText, live, found, bind, Except.bind]
  | some n =>
    cases leaf : n.isLeaf with
    | false => simp [replaceText_of_composite found leaf, leaf]
    | true =>
      rcases Nat.lt_or_ge (t.lengthWith n text) (2 ^ 32) with room | long
      · have made : t.replaceText id text = .ok (t.alter id fun _ => .tail text,
            ⟨n.start, n.start + text.utf8ByteSize⟩) := by
          rw [replaceText_eq found, leaf]
          exact if_neg (Nat.not_le.2 room)
        rw [made, Except.ok.injEq, Prod.mk.injEq]
        constructor
        · rintro ⟨rfl, rfl⟩
          exact ⟨n, rfl, leaf, room, rfl, rfl⟩
        · rintro ⟨_, ⟨⟩, -, -, rfl, rfl⟩
          exact ⟨rfl, rfl⟩
      · rw [replaceText_of_long found leaf long]
        refine ⟨nofun, ?_⟩
        rintro ⟨_, ⟨⟩, -, room, -⟩
        exact absurd room (Nat.not_lt.2 long)

/-- Children of a live node are removed, from one to the same or a later one. -/
theorem removeRange_eq_ok_iff {parent first last : NodeId} :
    t.removeRange parent first last = .ok (t', s) ↔
      ∃ p a b i j, t.node? parent = some p ∧ t.node? first = some a ∧ t.node? last = some b ∧
        p.children.findIdx? (·.id == first) = some i ∧
        p.children.findIdx? (·.id == last) = some j ∧ i ≤ j ∧
        t' = t.alter parent (·.cut first last) ∧ s = ⟨a.span.start, b.span.stop⟩ := by
  simp only [← live_eq_ok_iff, ← childIndex_eq_ok_iff]
  unfold removeRange
  cases hp : t.live parent with
  | error f => simp [bind, Except.bind]
  | ok p =>
    cases ha : t.live first with
    | error f => simp [bind, Except.bind]
    | ok a =>
      cases hb : t.live last with
      | error f => simp [bind, Except.bind]
      | ok b =>
        cases hi : childIndex p first with
        | error f => simp [bind, Except.bind, hi]
        | ok i =>
          cases hj : childIndex p last with
          | error f => simp [bind, Except.bind, hi, hj]
          | ok j =>
            by_cases order : j < i
            · have : ¬ i ≤ j := by omega
              simp [bind, Except.bind, hi, hj, order, this, throw, throwThe, MonadExceptOf.throw]
            · have : i ≤ j := by omega
              simp only [bind, Except.bind, hi, hj, order, if_false, pure, Except.pure,
                Except.ok.injEq, Prod.mk.injEq]
              constructor
              · rintro ⟨rfl, rfl⟩
                exact ⟨p, a, b, i, j, rfl, rfl, rfl, hi, hj, this, rfl, rfl⟩
              · rintro ⟨p, a, b, i, j, rfl, rfl, rfl, -, -, -, rfl, rfl⟩
                exact ⟨rfl, rfl⟩

/-- An edit is refused, or a leaf has another text, or a node some children less. -/
theorem tryEdit_cases (t : Tree) (e : Edit) :
    (t.tryEdit e).tree = t ∨
    (∃ id text, (t.tryEdit e).tree = t.alter id fun _ => .tail text) ∨
    ∃ parent first last, (t.tryEdit e).tree = t.alter parent (·.cut first last) := by
  unfold tryEdit
  cases h : t.edit e with
  | error f => exact .inl rfl
  | ok r =>
    obtain ⟨t', s⟩ := r
    refine .inr ?_
    cases e with
    | replace id text =>
      obtain ⟨n, -, -, -, rfl, -⟩ := replaceText_eq_ok_iff.1 h
      exact .inl ⟨id, text, rfl⟩
    | remove parent first last =>
      obtain ⟨p, a, b, i, j, -, -, -, -, -, -, rfl, -⟩ := removeRange_eq_ok_iff.1 h
      exact .inr ⟨parent, first, last, rfl⟩

/-- An edit is refused, or it changes one node and only drops identities. -/
theorem tree_tryEdit (t : Tree) (e : Edit) :
    (t.tryEdit e).tree = t ∨ ∃ target f, (t.tryEdit e).tree = t.alter target f ∧
      ∀ c, (f c).ids.Sublist c.ids := by
  rcases tryEdit_cases t e with same | ⟨id, text, change⟩ | ⟨parent, first, last, change⟩
  · exact .inl same
  · exact .inr ⟨id, _, change, fun c => List.nil_sublist _⟩
  · exact .inr ⟨parent, _, change, Content.ids_cut_sublist first last⟩

/-- **An edit keeps identities distinct.** -/
theorem Numbered.tryEdit (h : t.Numbered) (e : Edit) : (t.tryEdit e).tree.Numbered := by
  rcases tree_tryEdit t e with same | ⟨target, f, change, hf⟩
  · rwa [same]
  · rw [change]
    exact h.alter hf target

end Tree

end SyntaxLint
