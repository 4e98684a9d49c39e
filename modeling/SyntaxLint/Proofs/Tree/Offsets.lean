import Mathlib.Algebra.Group.Nat.Defs
import SyntaxLint.Tree.Event

/-!
# Proofs — Trees — offsets of 32 bits

Offsets are kept in 32 bits.  Those within a text that is shorter than that are kept as they are,
and so is what is built of it; past that they begin again at zero, and the ranges that this gives
are checked.

* `Span.word_of_lt`, `Span.wrapped_of_lt`: offsets and spans that are kept.
* `Building.grown_of_lt`, `Building.grown_of_le`: what becomes of a finished node.
-/

namespace SyntaxLint

namespace Span

theorem word_of_lt {offset : Nat} (h : offset < 2 ^ 32) : word offset = offset :=
  Nat.mod_eq_of_lt h

theorem wrapped_of_lt {s : Span} (h : s.start ≤ s.stop) (short : s.stop < 2 ^ 32) :
    s.wrapped = s := by
  rw [wrapped, word_of_lt (Nat.lt_of_le_of_lt h short), word_of_lt short]

end Span

namespace Building

variable {identity : TreeId} {root : Node} {offset : Nat}

theorem grown_of_lt (h : offset < 2 ^ 32) :
    grown identity root offset = .ok (Tree.ofRoot identity root) := if_pos h

theorem grown_of_le (h : 2 ^ 32 ≤ offset) :
    grown identity root offset = Tree.ofOutline identity (Tree.ofRoot identity root).source
      (Tree.ofRoot identity root).outline.wrapped :=
  if_neg (Nat.not_lt.2 h)

end Building

end SyntaxLint
