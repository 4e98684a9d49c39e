import SyntaxLint.Proofs.Text.Splice
import SyntaxLint.Proofs.Tree.Nodes
import SyntaxLint.Tree.Outline

/-!
# Proofs — Trees — ranges

The ranges of a tree are read off the lengths of its texts.  So whatever tree it is, its outline
passes the check that an outline has to pass before it is laid over a text.

* `Tree.validate_eq_ok`: the outline of a tree passes the check.
-/

namespace SyntaxLint

namespace Content

/-- Siblings stand in order, and none ends after the run does. -/
theorem checkOrder_outline (c : Content) (kind : Kind) {start cursor stop : Nat}
    (hc : cursor ≤ start) (hs : start + c.width ≤ stop) :
    (c.outline start).checkOrder kind stop cursor = .ok () := by
  induction c generalizing start cursor with
  | tail s => rfl
  | node gap id k body next _ ihn =>
    simp only [width] at hs
    rw [outline, Outline.checkOrder, if_neg (by simp only; omega), if_neg (by simp only; omega)]
    exact ihn (Nat.le_refl _) (by omega)

/-- The range of a part of a text lies in the text, between characters. -/
theorem checkRange_part (a b c : String) (kind : Kind) :
    Outline.checkRange (a ++ b ++ c) kind
      ⟨a.utf8ByteSize, a.utf8ByteSize + b.utf8ByteSize⟩ = .ok () := by
  have first : Text.endsCharacter (a ++ b ++ c) a.utf8ByteSize = true := by
    rw [String.append_assoc]; exact Text.endsCharacter_append a (b ++ c)
  have last : Text.endsCharacter (a ++ b ++ c) (a.utf8ByteSize + b.utf8ByteSize) = true := by
    rw [← String.utf8ByteSize_append]; exact Text.endsCharacter_append (a ++ b) c
  rw [Outline.checkRange, if_neg (by simp only; omega), if_neg, if_pos (by rw [first, last]; rfl)]
  simp only [String.utf8ByteSize_append]
  omega

/-- The outline of a run within a text passes the check. -/
theorem check_outline (c : Content) (before after : String) :
    (c.outline before.utf8ByteSize).check (before ++ c.text ++ after) = .ok () := by
  induction c generalizing before after with
  | tail s => rfl
  | node gap id kind body next ihb ihn =>
    have inside := ihb (before ++ gap) (next.text ++ after)
    have beside := ihn (before ++ gap ++ body.text) after
    have range := checkRange_part (before ++ gap) body.text (next.text ++ after) kind
    have order : (body.outline (before.utf8ByteSize + gap.utf8ByteSize)).checkOrder kind
        (before.utf8ByteSize + gap.utf8ByteSize + body.width)
        (before.utf8ByteSize + gap.utf8ByteSize) = .ok () :=
      checkOrder_outline body kind (Nat.le_refl _) (Nat.le_refl _)
    simp only [String.append_assoc, String.utf8ByteSize_append, ← width_eq, ← Nat.add_assoc]
      at inside beside range
    simp only [outline, Outline.check, text_node, String.append_assoc, inside, beside, range, order]
    rfl

end Content

namespace Tree

/-- **Every tree passes the check of its ranges.** -/
theorem validate_eq_ok (t : Tree) : t.validate = .ok () := by
  have h := Content.check_outline t.content "" ""
  have outline : t.content.outline "".utf8ByteSize =
      .node t.outline.kind t.outline.span t.outline.children .done := by
    simp [content, Content.outline, Tree.outline, top, Placed.span]
  rw [outline] at h
  simpa [validate, OutlineNode.check, source] using h

end Tree

end SyntaxLint
