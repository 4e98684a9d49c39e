import SyntaxLint.Proofs.Fixing.Spaces
import SyntaxLint.Proofs.Fixing.Target
import SyntaxLint.Proofs.Lint.Findings

/-!
# Proofs — Fixing — renaming a trigger

The fix of a reported binding gives its name brackets and formats the binding.  Together that is
new texts for leaves below the binding.

* `Node.Triggers`: a binding by one trigger.
* `Fix.apply_rename`: what the fix makes of the tree.
* `Tree.Regular.length_changeBelow_le`: how long it makes the source.
-/

namespace SyntaxLint

/-- A binding whose only name is `@trigger`. -/
structure Node.Triggers (b : Node) (trigger : String) : Prop where
  kind : b.kind = .propertyBinding
  name : ∃ m, b.body.child? .attributeName = some m ∧ m.body.text = "@" ++ trigger ∧
    ∀ n ∈ b.body.members, n.kind = .attributeName → n = m

variable {t : Tree} {n : Node} {b p : Placed} {space : String → Option String}
  {format : Formatter} {trigger : String} {anchor : Anchor}

/-- New texts below a node are texts for leaves. -/
theorem Tree.Regular.isLeaf_of_change (ht : t.Regular) (hn : n ∈ t.content.members)
    (h : (n.change space).isSome) : n.body.isLeaf = true := by
  unfold Node.change at h
  split at h
  · exact ht.name n hn ‹_›
  · split at h
    · exact (ht.blank n hn ‹_›).1
    · simp at h

/-- The names of a binding and of a bound trigger differ. -/
theorem Fix.ne_bindingForm (trigger : String) : "@" ++ trigger ≠ Fix.bindingForm trigger := by
  intro e
  have := congrArg (List.head? ∘ String.toList) e
  simp [Fix.bindingForm] at this

theorem Fix.bindingForm_ne_empty : Fix.bindingForm trigger ≠ "" := by
  simp [Fix.bindingForm]

theorem Fix.bindingForm_eq (trigger : String) :
    Fix.bindingForm trigger = "[" ++ ("@" ++ trigger) ++ "]" := by
  apply String.toList_inj.1
  simp [Fix.bindingForm]

/-- A new text for one node is the text. -/
theorem Node.ne_empty_of_textAt {id : NodeId} {x y : String} (full : x ≠ "")
    (h : n.textAt id x = some y) : y ≠ "" := by
  unfold Node.textAt at h
  split at h
  · exact Option.some.inj h ▸ full
  · cases h

/-- The edit that renames a trigger. -/
theorem Fix.edit?_rename (found : b.child? .attributeName = some p)
    (text : p.text = "@" ++ trigger) :
    (Fix.rename trigger).edit? t b = .ok (some (.replace p.id (bindingForm trigger))) := by
  have ne : p.text ≠ bindingForm trigger := text ▸ ne_bindingForm trigger
  simp [edit?, required, Placed.required, found, ne, bind, Except.bind, pure, Except.pure]

/-- A node whose identity is among those below another stands below it. -/
theorem Tree.Numbered.mem_members_below (ht : t.Numbered) (hb : b ∈ t.nodes)
    (hn : n ∈ t.content.members) (below : n.id ∈ b.body.ids) : n ∈ b.body.members := by
  obtain ⟨q, hq, same⟩ := Content.exists_mem_preorder below b.start (some b.id)
  have mem : q ∈ t.nodes := Content.mem_preorder_of_mem_descendants hb hq
  rw [ht.eq_of_mem_members hn (toNode_mem mem) same.symm]
  exact Content.toNode_mem_members hq

/-- The new name and the new blanks together are the new texts below a binding. -/
theorem Tree.Regular.retext_rename (ht : t.Regular) (hb : b ∈ t.nodes) (hp : p ∈ t.nodes)
    (below : p.id ∈ b.body.ids) (kind : p.kind = .attributeName) (text : p.text = "@" ++ trigger)
    (only : ∀ n ∈ b.body.members, n.kind = .attributeName → n = p.toNode) :
    (t.retext (Node.textAt p.id (Fix.bindingForm trigger))).retext
      (fun n => if n.kind = .whitespace ∧ n.id ∈ b.body.ids then space n.body.text else none) =
      t.retext (Node.changeBelow space [b.toNode]) := by
  rw [retext_retext]
  refine retext_congr fun n hn => ?_
  by_cases same : n.id = p.id
  · obtain rfl := ht.numbered.eq_of_mem_members hn (toNode_mem hp) same
    simp [Node.textAt, Node.changeBelow, Node.change, kind, below, Fix.bindingForm_eq, ← text,
      Placed.text]
  · have kept : n.kind = .whitespace →
        (n.retext (Node.textAt p.id (Fix.bindingForm trigger))).body.text = n.body.text := by
      intro blank
      rw [Node.text_retext_of_isLeaf (ht.blank n hn blank).1, Node.textAt, if_neg same]
      rfl
    by_cases inside : n.id ∈ b.body.ids
    · have other : n.kind ≠ .attributeName := by
        intro name
        have unique := only n (ht.numbered.mem_members_below hb hn inside) name
        exact same (congrArg Node.id unique)
      by_cases blank : n.kind = .whitespace
      · simp [Node.textAt, Node.changeBelow, Node.change, same, inside, blank, kept blank]
      · simp [Node.textAt, Node.changeBelow, Node.change, same, inside, blank, other]
    · simp [Node.textAt, Node.changeBelow, same, inside]

/-- The name of a binding by one trigger, where it stands. -/
theorem Node.Triggers.exists_name (triggers : b.Triggers trigger) (ht : t.Regular)
    (hb : b ∈ t.nodes) : ∃ q ∈ t.nodes, b.child? .attributeName = some q ∧
      q.kind = .attributeName ∧ q.isLeaf = true ∧ q.id ∈ b.body.ids ∧ q.text = "@" ++ trigger ∧
      ∀ n ∈ b.body.members, n.kind = .attributeName → n = q.toNode := by
  obtain ⟨m, named, text, only⟩ := triggers.name
  obtain ⟨q, found, rfl⟩ := Placed.exists_child? named
  have hq : q ∈ t.nodes := Tree.mem_nodes_of_mem_children hb (List.mem_of_find?_eq_some found)
  obtain ⟨below, kind⟩ := Content.mem_members_of_child? named
  exact ⟨q, hq, found, kind, ht.name _ (Tree.toNode_mem hq) kind,
    Content.id_mem_of_mem_members below, text, only⟩

/-- A bound trigger is two bytes longer. -/
theorem Tree.Numbered.lengthWith_bindingForm (ht : t.Numbered) (hp : p ∈ t.nodes)
    (text : p.text = "@" ++ trigger) :
    t.lengthWith p (Fix.bindingForm trigger) = t.source.utf8ByteSize + 2 := by
  have length := ht.lengthWith_add hp (Fix.bindingForm trigger)
  have brackets : "[".utf8ByteSize = 1 ∧ "]".utf8ByteSize = 1 := ⟨rfl, rfl⟩
  rw [Fix.bindingForm_eq, ← text, String.utf8ByteSize_append, String.utf8ByteSize_append,
    Content.width_eq] at length
  rw [Fix.bindingForm_eq, ← text]
  simp only [Placed.text] at length ⊢
  omega

/-- **Fixing a binding** gives its name brackets and its blanks the texts of the formatter, if
offsets reach the end of the source with the brackets. -/
theorem Fix.apply_rename (hf : format.Spaces space) (ht : t.Regular)
    (room : t.source.utf8ByteSize + 2 < 2 ^ 32) (hb : b ∈ t.nodes)
    (triggers : b.Triggers trigger) (tree : anchor.tree = t.identity)
    (target : anchor.target = some b.id) :
    ∃ span range, (Fix.rename trigger).apply format t anchor =
      ⟨.ok (.applied span), t.retext (Node.changeBelow space [b.toNode]), [range], []⟩ := by
  obtain ⟨q, hq, found, kind, leaf, below, text, only⟩ := triggers.exists_name ht hb
  have resolved := Anchor.resolve_eq ht.numbered hb (by simp [triggers.kind, Kind.isAttribute])
    tree target
  have edit := Fix.edit?_rename (t := t) found text
  have room : t.lengthWith q (bindingForm trigger) < 2 ^ 32 := by
    rwa [ht.numbered.lengthWith_bindingForm hq text]
  have renamed : t.tryEdit (.replace q.id (bindingForm trigger)) =
      ⟨.ok ⟨q.start, q.start + (bindingForm trigger).utf8ByteSize⟩,
        t.retext (Node.textAt q.id (bindingForm trigger))⟩ := by
    simp only [Tree.tryEdit, Tree.edit, ht.numbered.replaceText_leaf hq leaf room]
  -- the binding after the edit, of which the formatter is told the range
  have leaves := ht.numbered.isLeaf_of_textAt hq leaf (bindingForm trigger)
  obtain ⟨b', hb', id, kind', ids⟩ := Tree.exists_placed_retext leaves hb
  have regular := ht.retext leaves fun n x => Node.ne_empty_of_textAt bindingForm_ne_empty
  have range : Session.rangeOf t (t.retext (Node.textAt q.id (bindingForm trigger))) b.id =
      b'.span := by
    rw [Session.rangeOf, ← id, regular.numbered.node?_id hb']
  have short := (Nat.le_of_eq (ht.numbered.length_textAt hq _)).trans_lt room
  have spaced := hf _ b' regular short hb' (by simp [kind', triggers.kind])
  rw [ids, ht.retext_rename hb hq below kind text only] at spaced
  refine ⟨⟨q.start, q.start + (bindingForm trigger).utf8ByteSize⟩, b'.span, ?_⟩
  simp only [apply, resolved, edit, bind, Except.bind, pure, Except.pure, renamed, Session.close,
    range, spaced, changed]

/-- Fixing a binding makes the source longer by the brackets and no more: blanks have texts. -/
theorem Tree.Regular.length_changeBelow_le (ht : t.Regular) (hs : OneSpace space)
    (hb : b ∈ t.nodes) (triggers : b.Triggers trigger) :
    (t.retext (Node.changeBelow space [b.toNode])).source.utf8ByteSize ≤
      t.source.utf8ByteSize + 2 := by
  obtain ⟨q, hq, -, kind, leaf, below, text, only⟩ := triggers.exists_name ht hb
  have leaves := ht.numbered.isLeaf_of_textAt hq leaf (Fix.bindingForm trigger)
  have regular := ht.retext leaves fun n x => Node.ne_empty_of_textAt Fix.bindingForm_ne_empty
  have named := ht.numbered.length_textAt hq (Fix.bindingForm trigger)
  rw [ht.numbered.lengthWith_bindingForm hq text] at named
  rw [← ht.retext_rename hb hq below kind text only, ← named]
  refine length_retext_le_of_le fun n hn x given => ?_
  split at given
  · rename_i blank
    have wide := Content.width_pos_of_text_ne (regular.blank n hn blank.1).2
    rw [hs _ _ given, show " ".utf8ByteSize = 1 from rfl]
    exact wide
  · cases given

end SyntaxLint
