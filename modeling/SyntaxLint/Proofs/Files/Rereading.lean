import SyntaxLint.Files.Source
import SyntaxLint.Proofs.Fixing.Anchors
import SyntaxLint.Proofs.Tree.Stored

/-!
# Proofs — Files — stored documents read again

A tree that was read from a stored document, and then edited, formatted and fixed in any way, is
written as a document that is read again, with the same source and the same outline.  Three things
are needed.  What was read is not nested deeper than the reader goes, and no edit makes it deeper;
the reader inverts the writer; and the outline of a tree can be laid over its source.

Offsets are of 32 bits.  What is read ends within them, and nothing is done to a tree by which it
would end behind them.

* `Tree.Step`, `Tree.Worked`: what edits, formatting and fixes make of a tree.
* `Form.exists_tree_text`: a tree of which the document can be written.
* `Source.reread_of_loaded`: the trees that were read.
-/

namespace SyntaxLint

/-- What an edit, a formatting or a fix makes of a tree, with any arguments and whether or not it is
refused. -/
inductive Tree.Step (t : Tree) : Tree → Prop where
  | edit (e : Edit) : Step t (t.tryEdit e).tree
  | reformat (range : Span) : Step t (Formatter.whitespace t range).tree
  | fix (f : Fix) {format : Formatter} (hf : format.EditsOnly) (anchor : Anchor) :
      Step t (f.apply format t anchor).tree

/-- What steps make of a tree, one after the other.  A step by which the tree would end behind
offsets of 32 bits is not made. -/
inductive Tree.Worked (t : Tree) : Tree → Prop where
  | refl : Worked t t
  | more {u v : Tree} (h : Worked t u) (step : u.Step v) (words : v.top.span.stop < 2 ^ 32) :
      Worked t v

namespace Tree

variable {t u : Tree}

/-- Whatever is done to a tree is done by edits. -/
theorem Step.edits (h : t.Step u) : t.Edits u := by
  cases h with
  | edit e => exact .more .refl e
  | reformat range => exact Formatter.whitespace_editsOnly _ range
  | fix f hf anchor => exact Fix.edits_apply f hf _ anchor

/-- No edits make a tree deeper. -/
theorem Edits.depth_le (h : t.Edits u) : u.depth ≤ t.depth := by
  induction h with
  | refl => exact Nat.le_refl _
  | more _ e ih => exact Nat.le_trans (depth_tryEdit_le _ e) ih

theorem Worked.depth_le (h : t.Worked u) : u.depth ≤ t.depth := by
  induction h with
  | refl => exact Nat.le_refl _
  | more _ step _ ih => exact Nat.le_trans step.edits.depth_le ih

theorem Worked.words (h : t.Worked u) (words : t.top.span.stop < 2 ^ 32) :
    u.top.span.stop < 2 ^ 32 := by
  cases h with
  | refl => exact words
  | more _ _ words => exact words

end Tree

namespace Form

variable {identity : TreeId} {text : String} {t : Tree}

/-- A document that holds a tree is read and laid over its source. -/
theorem tree_document_eq_ok_iff :
    document.tree identity text = .ok t ↔
      ∃ d, Document.ofText? text = some d ∧ d.tree identity = .ok t := by
  rw [tree]
  cases Document.ofText? text with
  | none => simp
  | some d => cases h : d.tree identity <;> simp [h]

/-- **A tree whose document can be written** is read again. -/
theorem exists_tree_text (h : t.document.Writable) (identity : TreeId) :
    ∃ u, document.tree identity (document.text t) = .ok u ∧ u.source = t.source ∧
      u.outline = t.outline := by
  obtain ⟨u, laid, source, outline⟩ := Tree.exists_ofOutline_outline identity t
  exact ⟨u, tree_document_eq_ok_iff.2 ⟨t.document, h.ofText?_toText, laid⟩, source, outline⟩

/-- A tree that was read is nested as deep as the reader goes, at most, and ends within 32 bits. -/
theorem bounded_of_tree (h : document.tree identity text = .ok t) :
    2 * t.depth < Json.maxNesting ∧ t.top.span.stop < 2 ^ 32 := by
  obtain ⟨d, read, laid⟩ := tree_document_eq_ok_iff.1 h
  obtain ⟨depth, words⟩ := Document.bounded_of_ofText? read
  rw [← (Tree.of_ofOutline laid).2.1] at depth words
  rw [← Tree.depth_outline]
  exact ⟨depth, words.stop⟩

end Form

namespace Source

/-- **What is written for a tree that was read, and whatever was done to it since, is read
again**, as a tree with the same source and the same outline. -/
theorem reread_of_loaded {identity : TreeId} {text : String} {t u : Tree} (path : Path)
    (identity' : TreeId) (loaded : Form.document.tree identity text = .ok t)
    (worked : t.Worked u) :
    ∃ v, Form.document.tree identity' (Source.text ⟨path, .document, u⟩) = .ok v ∧
      v.source = u.source ∧ v.outline = u.outline := by
  obtain ⟨depth, words⟩ := Form.bounded_of_tree loaded
  have shallow : 2 * u.depth < Json.maxNesting := by
    have := worked.depth_le
    omega
  refine Form.exists_tree_text ⟨Tree.words_outline (worked.words words), ?_⟩ identity'
  rwa [← Tree.depth_outline] at shallow

/-- A document of two leaves. -/
def twoLeaves : Tree :=
  ⟨0, "", ⟨2, .document, .node "" 0 .text (.tail "a") (.node "" 1 .whitespace (.tail "   ")
    (.tail ""))⟩, ""⟩

/-- One leaf is given a text with a quote and a line break, and the other is formatted. -/
theorem reread_of_replaced : ∃ u v,
    Form.document.tree 0
      "[\"a   \",[\"Document\",[0,4],[[\"Text\",[0,1]],[\"Whitespace\",[1,4]]]]]" =
        .ok twoLeaves ∧
    twoLeaves.Worked u ∧ u.source = "\"é\n " ∧
    Form.document.tree 1 (Source.text ⟨⟨"a.tree.json"⟩, .document, u⟩) = .ok v ∧
      v.source = u.source ∧ v.outline = u.outline := by
  have loaded : Form.document.tree 0
      "[\"a   \",[\"Document\",[0,4],[[\"Text\",[0,1]],[\"Whitespace\",[1,4]]]]]" =
      .ok twoLeaves := by decide +kernel
  have replaced : twoLeaves.Worked (twoLeaves.tryEdit (.replace 0 "\"é\n")).tree :=
    .more .refl (.edit _) (by decide +kernel)
  have worked : twoLeaves.Worked
      (Formatter.whitespace (twoLeaves.tryEdit (.replace 0 "\"é\n")).tree ⟨0, 9⟩).tree :=
    .more replaced (.reformat _) (by decide +kernel)
  obtain ⟨v, read, source, outline⟩ := reread_of_loaded ⟨"a.tree.json"⟩ 1 loaded worked
  exact ⟨_, v, loaded, worked, by decide +kernel, read, source, outline⟩

end Source

end SyntaxLint
