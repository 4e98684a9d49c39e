import Mathlib.Data.List.Pairwise
import SyntaxLint.Proofs.Tree.Retext

/-!
# Proofs — Trees — offsets after new texts

Where leaves are given new texts the ends of nodes move.  If no text is empty, two ends with text
between them are kept apart: what there was between them is there still, or is a leaf that has a
text now.  So a node that lies in the range of another has lain in it.

* `Mark`, `Mark.Precedes`: an offset with what becomes of it, and marks in order.
* `Content.marks`: the ends of the nodes of a run.
* `Tree.Numbered.encloses_of_retext`: ranges of nodes, after and before.
-/

namespace SyntaxLint

/-- An offset, and what becomes of it. -/
structure Mark where
  old : Nat
  new : Nat

/-- One mark before another, or at the same place; if they are apart, so they are after. -/
structure Mark.Precedes (a b : Mark) : Prop where
  old : a.old ≤ b.old
  new : a.new ≤ b.new
  apart : a.old < b.old → a.new < b.new

namespace Mark

variable {a b c : Mark}

theorem Precedes.refl (a : Mark) : a.Precedes a :=
  ⟨Nat.le_refl _, Nat.le_refl _, fun lt => absurd lt (Nat.lt_irrefl _)⟩

theorem Precedes.trans (h : a.Precedes b) (h' : b.Precedes c) : a.Precedes c := by
  refine ⟨Nat.le_trans h.old h'.old, Nat.le_trans h.new h'.new, fun lt => ?_⟩
  rcases Nat.lt_or_ge a.old b.old with first | first
  · exact Nat.lt_of_lt_of_le (h.apart first) h'.new
  · exact Nat.lt_of_le_of_lt h.new (h'.apart (Nat.lt_of_le_of_lt first lt))

/-- A mark that is some bytes behind, and still some if there were any. -/
theorem precedes_add (a : Mark) {n m : Nat} (h : 0 < n → 0 < m) :
    a.Precedes ⟨a.old + n, a.new + m⟩ :=
  ⟨Nat.le_add_right _ _, Nat.le_add_right _ _, fun lt =>
    Nat.lt_add_of_pos_right (h (Nat.lt_add_right_iff_pos.1 lt))⟩

end Mark

variable {h : Node → Option String}

/-- No text that is given is empty. -/
def Full (h : Node → Option String) : Prop := ∀ n x, h n = some x → x ≠ ""

namespace Content

variable {c : Content} {m m' : Mark} {p : Placed} {start : Nat} {parent : Option NodeId}

/-- The ends of all nodes of a run in their order, where nodes are given new texts and `a` is where
the run begins. -/
def marks (h : Node → Option String) (a : Mark) : Content → List Mark
  | .tail _ => []
  | .node gap id kind body next =>
    let left : Mark := ⟨a.old + gap.utf8ByteSize, a.new + gap.utf8ByteSize⟩
    let right : Mark :=
      ⟨left.old + body.width, left.new + (Node.retext h ⟨id, kind, body⟩).body.width⟩
    left :: (body.marks h left ++ right :: next.marks h right)

/-- Where there is text there is some after the change. -/
theorem width_retext_pos (full : Full h) (c : Content) (pos : 0 < c.width) :
    0 < (c.retext h).width := by
  induction c with
  | tail s => exact pos
  | node gap id kind body next ihb ihn =>
    have here : 0 < body.width →
        0 < (((h ⟨id, kind, body⟩).map .tail).getD (body.retext h)).width := fun pos => by
      cases e : h ⟨id, kind, body⟩ with
      | none => exact ihb pos
      | some x =>
        have text := String.utf8ByteSize_eq_zero_iff.not.2 (full _ _ e)
        simpa [width, Nat.pos_iff_ne_zero] using text
    simp only [width, retext] at pos ⊢
    omega

end Content

/-- So it is with a node. -/
theorem Node.width_retext_pos (full : Full h) (n : Node) (pos : 0 < n.body.width) :
    0 < (n.retext h).body.width := by
  have alone := Content.width_retext_pos full (.node "" n.id n.kind n.body (.tail ""))
    (by simpa [Content.width] using pos)
  simpa [Content.width, Content.retext, Node.retext] using alone

namespace Content

variable {c : Content} {m m' a : Mark} {p : Placed} {start : Nat} {parent : Option NodeId}

/-- What is below a node with nodes below it is changed, and it is not given a text. -/
theorem body_retext_of_mem_marks {n : Node} (leaf : (h n).isSome → n.body.isLeaf)
    (hm : m ∈ n.body.marks h a) : (n.retext h).body = n.body.retext h := by
  cases e : h n with
  | none => simp [Node.retext, e]
  | some x =>
    cases hb : n.body with
    | tail s => simp [hb, marks] at hm
    | node => simp [e, hb, isLeaf] at leaf

/-- The nodes of a run lie between its ends, before and after. -/
theorem precedes_of_mem_marks (full : Full h)
    (leaves : ∀ n ∈ c.members, (h n).isSome → n.body.isLeaf) (hm : m ∈ c.marks h a) :
    a.Precedes m ∧ m.Precedes ⟨a.old + c.width, a.new + (c.retext h).width⟩ := by
  induction c generalizing a with
  | tail s => simp [marks] at hm
  | node gap id kind body next ihb ihn =>
    simp only [members, List.cons_append, List.forall_mem_cons, List.forall_mem_append] at leaves
    obtain ⟨here, below, later⟩ := leaves
    set n : Node := ⟨id, kind, body⟩ with hn
    set left : Mark := ⟨a.old + gap.utf8ByteSize, a.new + gap.utf8ByteSize⟩ with hl
    set right : Mark := ⟨left.old + body.width, left.new + (n.retext h).body.width⟩ with hr
    have first : a.Precedes left := a.precedes_add fun pos => pos
    have second : left.Precedes right := left.precedes_add (n.width_retext_pos full)
    have third : right.Precedes ⟨a.old + (Content.node gap id kind body next).width,
        a.new + ((Content.node gap id kind body next).retext h).width⟩ := by
      have last := right.precedes_add (next.width_retext_pos full)
      simpa [hl, hr, hn, width, retext, Node.retext, Nat.add_assoc] using last
    simp only [marks, List.mem_cons, List.mem_append] at hm
    rcases hm with rfl | hm | rfl | hm
    · exact ⟨first, second.trans third⟩
    · obtain ⟨left', right'⟩ := ihb below hm
      rw [← body_retext_of_mem_marks (n := n) here hm] at right'
      exact ⟨first.trans left', right'.trans third⟩
    · exact ⟨first.trans second, third⟩
    · obtain ⟨left', right'⟩ := ihn later hm
      refine ⟨(first.trans second).trans left', ?_⟩
      simpa [hl, hr, hn, width, retext, Node.retext, Nat.add_assoc] using right'

/-- The ends of nodes are in order. -/
theorem pairwise_marks (full : Full h)
    (leaves : ∀ n ∈ c.members, (h n).isSome → n.body.isLeaf) (a : Mark) :
    (c.marks h a).Pairwise Mark.Precedes := by
  induction c generalizing a with
  | tail s => exact .nil
  | node gap id kind body next ihb ihn =>
    simp only [members, List.cons_append, List.forall_mem_cons, List.forall_mem_append] at leaves
    obtain ⟨here, below, later⟩ := leaves
    set n : Node := ⟨id, kind, body⟩ with hn
    set left : Mark := ⟨a.old + gap.utf8ByteSize, a.new + gap.utf8ByteSize⟩ with hl
    set right : Mark := ⟨left.old + body.width, left.new + (n.retext h).body.width⟩ with hr
    have inside : ∀ m ∈ body.marks h left, left.Precedes m ∧ m.Precedes right := fun m hm => by
      rw [hr, body_retext_of_mem_marks (n := n) here hm]
      exact precedes_of_mem_marks full below hm
    have behind : ∀ m ∈ right :: next.marks h right, right.Precedes m :=
      List.forall_mem_cons.2 ⟨.refl right, fun m hm => (precedes_of_mem_marks full later hm).1⟩
    have across : left.Precedes right := left.precedes_add (n.width_retext_pos full)
    refine List.pairwise_cons.2 ⟨?_, List.pairwise_append.2 ⟨ihb below left, ?_, ?_⟩⟩
    · intro m hm
      rcases List.mem_append.1 hm with hm | hm
      · exact (inside m hm).1
      · exact across.trans (behind m hm)
    · exact List.pairwise_cons.2
        ⟨fun m hm => behind m (List.mem_cons_of_mem _ hm), ihn later right⟩
    · exact fun m hm m' hm' => (inside m hm).2.trans (behind m' hm')

/-- Of two ends of nodes one precedes the other. -/
theorem precedes_or_precedes (full : Full h)
    (leaves : ∀ n ∈ c.members, (h n).isSome → n.body.isLeaf) (hm : m ∈ c.marks h a)
    (hm' : m' ∈ c.marks h a) : m.Precedes m' ∨ m'.Precedes m := by
  have order := pairwise_marks full leaves a
  exact List.Pairwise.forall_of_forall_of_flip (R := fun m m' => m.Precedes m' ∨ m'.Precedes m)
    (fun m _ => .inl (.refl m)) (order.imp .inl) (order.imp .inr) hm hm'

/-- A node after the change, with its ends. -/
theorem exists_mem_retext (leaves : ∀ n ∈ c.members, (h n).isSome → n.body.isLeaf)
    (hp : p ∈ c.preorder a.old parent) :
    ∃ p' ∈ (c.retext h).preorder a.new parent, p'.id = p.id ∧
      ⟨p.start, p'.start⟩ ∈ c.marks h a ∧ ⟨p.span.stop, p'.span.stop⟩ ∈ c.marks h a := by
  induction c generalizing a parent with
  | tail s => simp [preorder] at hp
  | node gap id kind body next ihb ihn =>
    simp only [members, List.cons_append, List.forall_mem_cons, List.forall_mem_append] at leaves
    obtain ⟨here, below, later⟩ := leaves
    set n : Node := ⟨id, kind, body⟩ with hn
    set left : Mark := ⟨a.old + gap.utf8ByteSize, a.new + gap.utf8ByteSize⟩ with hl
    set right : Mark := ⟨left.old + body.width, left.new + (n.retext h).body.width⟩ with hr
    have nodes : ((Content.node gap id kind body next).retext h).preorder a.new parent =
        ⟨n.retext h, left.new, parent⟩ :: (n.retext h).body.preorder left.new (some id) ++
          (next.retext h).preorder right.new parent := rfl
    have ends : (Content.node gap id kind body next).marks h a =
        left :: (body.marks h left ++ right :: next.marks h right) := rfl
    rw [nodes, ends]
    simp only [preorder, List.cons_append, List.mem_cons, List.mem_append] at hp ⊢
    rcases hp with rfl | hp | hp
    · exact ⟨⟨n.retext h, left.new, parent⟩, .inl rfl, rfl, .inl rfl, .inr (.inr (.inl rfl))⟩
    · obtain ⟨p', hp', same, first, last⟩ := ihb (a := left) below hp
      rw [body_retext_of_mem_marks (n := n) here first]
      exact ⟨p', .inr (.inl hp'), same, .inr (.inl first), .inr (.inl last)⟩
    · obtain ⟨p', hp', same, first, last⟩ := ihn (a := right) later hp
      exact ⟨p', .inr (.inr hp'), same, .inr (.inr (.inr first)), .inr (.inr (.inr last))⟩

/-- Nodes keep their identities, kinds, parents and order. -/
theorem map_preorder_retext (leaves : ∀ n ∈ c.members, (h n).isSome → n.body.isLeaf)
    (start start' : Nat) (parent : Option NodeId) :
    ((c.retext h).preorder start' parent).map (fun n => (n.id, n.kind, n.parent)) =
      (c.preorder start parent).map fun n => (n.id, n.kind, n.parent) := by
  induction c generalizing start start' parent with
  | tail s => rfl
  | node gap id kind body next ihb ihn =>
    simp only [members, List.cons_append, List.forall_mem_cons, List.forall_mem_append] at leaves
    obtain ⟨here, below, later⟩ := leaves
    simp only [retext, preorder, List.map_append, List.map_cons]
    rw [ihn later (start + gap.utf8ByteSize + body.width)]
    cases e : h ⟨id, kind, body⟩ with
    | none => rw [← ihb below]; rfl
    | some x =>
      have leaf := here (by simp [e])
      cases body with
      | tail s => rfl
      | node => simp [isLeaf] at leaf

end Content

namespace Tree

variable {t : Tree} {n b n' b' : Placed}

/-- **A node that lies in the range of another has lain in it**, where leaves are given new
texts. -/
theorem Numbered.encloses_of_retext (ht : t.Numbered) (full : Full h)
    (leaves : ∀ n ∈ t.content.members, (h n).isSome → n.body.isLeaf) (hn : n ∈ t.nodes)
    (hb : b ∈ t.nodes) (hn' : n' ∈ (t.retext h).nodes) (hb' : b' ∈ (t.retext h).nodes)
    (same : n'.id = n.id) (same' : b'.id = b.id) (inside : n'.span.encloses b'.span = true) :
    n.span.encloses b.span = true := by
  have stands : ∀ {p p' : Placed}, p ∈ t.nodes → p' ∈ (t.retext h).nodes → p'.id = p.id →
      ⟨p.start, p'.start⟩ ∈ t.content.marks h ⟨0, 0⟩ ∧
        ⟨p.span.stop, p'.span.stop⟩ ∈ t.content.marks h ⟨0, 0⟩ := by
    intro p p' hp hp' same
    obtain ⟨q, hq, same'', ends⟩ := Content.exists_mem_retext (a := ⟨0, 0⟩) leaves hp
    obtain rfl := (ht.retext h).eq_of_id_eq hq hp' (same''.trans same.symm)
    exact ends
  obtain ⟨nl, nr⟩ := stands hn hn' same
  obtain ⟨bl, br⟩ := stands hb hb' same'
  simp only [Span.encloses, Bool.and_eq_true, decide_eq_true_eq] at inside ⊢
  constructor
  · by_contra out
    rcases Content.precedes_or_precedes full leaves bl nl with order | order
    · exact absurd inside.1 (Nat.not_le.2 (order.apart (Nat.not_le.1 out)))
    · exact out order.old
  · by_contra out
    rcases Content.precedes_or_precedes full leaves nr br with order | order
    · exact absurd inside.2 (Nat.not_le.2 (order.apart (Nat.not_le.1 out)))
    · exact out order.old

end Tree

end SyntaxLint
