import SyntaxLint.Fixing.Apply
import SyntaxLint.Proofs.Template.Lossless
import SyntaxLint.Proofs.Tree.Edit

/-!
# Proofs — Fixing — reachable trees

The trees there are: those built from events, laid out over a source or parsed, their copies, and
whatever edits, reformatting and fixes make of these, with any arguments and whether or not they
are refused.  A formatter that a fix is given may be any function of a tree and a range that
changes the tree by edits only.

* `Tree.Edits`, `Formatter.EditsOnly`: what edits make of a tree.
* `Tree.Reachable`: the trees there are.
* `Tree.Reachable.numbered`: their identities are distinct.
-/

namespace SyntaxLint

/-- What edits make of a tree, one after the other, each made or refused. -/
inductive Tree.Edits (t : Tree) : Tree → Prop where
  | refl : Edits t t
  | more {u : Tree} (h : Edits t u) (e : Edit) : Edits t (u.tryEdit e).tree

/-- A formatter that changes a tree by edits only. -/
def Formatter.EditsOnly (format : Formatter) : Prop :=
  ∀ (t : Tree) (range : Span), t.Edits (format t range).tree

/-- The trees there are. -/
inductive Tree.Reachable : Tree → Prop where
  | built {identity : TreeId} {events : List Event} {t : Tree}
      (h : Tree.ofEvents identity events = .ok t) : Reachable t
  | stored {identity : TreeId} {source : String} {n : OutlineNode} {t : Tree}
      (h : Tree.ofOutline identity source n = .ok t) : Reachable t
  | parsed {identity : TreeId} {source : String} {t : Tree}
      (h : Template.parse identity source = .ok t) : Reachable t
  | copy {t : Tree} (h : Reachable t) (identity : TreeId) : Reachable (t.copy identity)
  | edit {t : Tree} (h : Reachable t) (e : Edit) : Reachable (t.tryEdit e).tree
  | reformat {t : Tree} (h : Reachable t) (range : Span) :
      Reachable (Formatter.whitespace t range).tree
  | fix {t : Tree} (h : Reachable t) (f : Fix) {format : Formatter} (hf : format.EditsOnly)
      (anchor : Anchor) : Reachable (f.apply format t anchor).tree

/-! ### Formatters and fixes -/

namespace Formatter

theorem idle_editsOnly : idle.EditsOnly := fun _ _ => .refl

theorem tree_toSpace (f : Formatted) (id : NodeId) :
    (toSpace f id).tree = (f.tree.tryEdit (.replace id " ")).tree := by
  have same : f.tree.edit (.replace id " ") = f.tree.replaceText id " " := rfl
  unfold toSpace Tree.tryEdit
  rw [same]
  cases f.tree.replaceText id " " <;> rfl

theorem edits_foldl_toSpace {t : Tree} (ids : List NodeId) {f : Formatted}
    (h : t.Edits f.tree) : t.Edits (ids.foldl toSpace f).tree := by
  induction ids generalizing f with
  | nil => exact h
  | cons id ids ih =>
    refine ih ?_
    rw [tree_toSpace]
    exact .more h _

theorem whitespace_editsOnly : whitespace.EditsOnly :=
  fun t range => edits_foldl_toSpace (targets t range) .refl

end Formatter

/-- A fix leaves the tree as it is, or makes an edit and formats. -/
theorem Fix.tree_apply (f : Fix) (format : Formatter) (t : Tree) (anchor : Anchor) :
    (f.apply format t anchor).tree = t ∨
      ∃ e range, (f.apply format t anchor).tree = (format (t.tryEdit e).tree range).tree := by
  unfold Fix.apply
  dsimp only
  split
  · exact .inl rfl
  · exact .inl rfl
  · exact .inr ⟨_, _, rfl⟩

namespace Tree

variable {t u : Tree}

/-! ### Distinct identities -/

theorem Numbered.edits (h : t.Numbered) (e : t.Edits u) : u.Numbered := by
  induction e with
  | refl => exact h
  | more _ e ih => exact ih.tryEdit e

/-- **The identities of every tree there is are distinct.** -/
theorem Reachable.numbered (h : t.Reachable) : t.Numbered := by
  induction h with
  | built h => exact numbered_ofEvents h
  | stored h => exact numbered_ofOutline h
  | parsed h => exact Template.numbered_parse h
  | copy _ _ ih => exact ih
  | edit _ e ih => exact ih.tryEdit e
  | reformat _ range ih => exact ih.edits (Formatter.whitespace_editsOnly _ range)
  | @fix t _ f format hf anchor ih =>
    rcases Fix.tree_apply f format t anchor with same | ⟨e, range, same⟩
    · rwa [same]
    · rw [same]
      exact (ih.tryEdit e).edits (hf _ range)

end Tree

end SyntaxLint
