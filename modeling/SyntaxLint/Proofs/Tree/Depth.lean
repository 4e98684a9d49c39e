import SyntaxLint.Proofs.Tree.Edit
import SyntaxLint.Tree.Outline

/-!
# Proofs — Trees — depth

How deep the nodes of a tree are nested.  An outline is as deep as its tree, and no edit makes a
tree deeper: a leaf stays a leaf, and children are only removed.

* `Outline.depth`, `Content.depth`, `Tree.depth`: nodes below nodes.
* `Tree.depth_tryEdit_le`: edits.
-/

namespace SyntaxLint

/-- How many nodes of a run there are below one another at most. -/
def Outline.depth : Outline → Nat
  | .done => 0
  | .node _ _ children next => max (children.depth + 1) next.depth

/-- How many nodes there are below one another at most, the node itself included. -/
def OutlineNode.depth (n : OutlineNode) : Nat := n.children.depth + 1

namespace Content

/-- How many nodes of a run there are below one another at most. -/
def depth : Content → Nat
  | .tail _ => 0
  | .node _ _ _ body next => max (body.depth + 1) next.depth

theorem depth_outline (c : Content) (start : Nat) : (c.outline start).depth = c.depth := by
  induction c generalizing start with
  | tail s => rfl
  | node gap id kind body next ihb ihn => rw [outline, Outline.depth, depth, ihb, ihn]

theorem depth_prepend (gap : String) (c : Content) : (c.prepend gap).depth = c.depth := by
  cases c <;> rfl

theorem depth_after_le (last : NodeId) (c : Content) : (c.after last).depth ≤ c.depth := by
  induction c with
  | tail s => exact Nat.le_refl _
  | node gap id kind body next _ ihn =>
    rw [after, depth]
    split <;> omega

theorem depth_cut_le (first last : NodeId) (c : Content) : (c.cut first last).depth ≤ c.depth := by
  induction c with
  | tail s => exact Nat.le_refl _
  | node gap id kind body next _ ihn =>
    rw [cut]
    split
    · rw [depth_prepend]
      exact depth_after_le last _
    · rw [depth, depth]
      omega

theorem depth_alter_le {f : Content → Content} (h : ∀ c, (f c).depth ≤ c.depth) (target : NodeId)
    (c : Content) : (c.alter target f).depth ≤ c.depth := by
  induction c with
  | tail s => exact Nat.le_refl _
  | node gap id kind body next ihb ihn =>
    have here := h body
    rw [alter]
    split <;> rw [depth, depth] <;> omega

end Content

namespace Tree

variable {t : Tree}

/-- How many nodes of a tree there are below one another at most. -/
def depth (t : Tree) : Nat := t.root.body.depth + 1

theorem depth_outline (t : Tree) : t.outline.depth = t.depth := by
  rw [OutlineNode.depth, outline, Content.depth_outline, depth]

theorem depth_alter_le {f : Content → Content} (h : ∀ c, (f c).depth ≤ c.depth)
    (target : NodeId) : (t.alter target f).depth ≤ t.depth := by
  rw [alter]
  split
  · exact Nat.succ_le_succ (h _)
  · exact Nat.succ_le_succ (Content.depth_alter_le h target _)

/-- **An edit, made or refused, makes no tree deeper.** -/
theorem depth_tryEdit_le (t : Tree) (e : Edit) : (t.tryEdit e).tree.depth ≤ t.depth := by
  rcases tryEdit_cases t e with same | ⟨id, text, change⟩ | ⟨parent, first, last, change⟩
  · exact Nat.le_of_eq (congrArg depth same)
  · rw [change]
    exact depth_alter_le (fun c => Nat.zero_le _) id
  · rw [change]
    exact depth_alter_le (Content.depth_cut_le first last) parent

end Tree

end SyntaxLint
