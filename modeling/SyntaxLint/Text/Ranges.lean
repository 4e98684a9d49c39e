/-!
# Text — ranges of code points

A class of characters as a list of ranges, in ascending order and apart from each other.

* `Ranges.has`: whether a character is in the class.
-/

namespace SyntaxLint.Text

/-- Inclusive ranges of code points. -/
abbrev Ranges := List (Nat × Nat)

namespace Ranges

/-- Whether a character is in one of the ranges. -/
def has (rs : Ranges) (c : Char) : Bool := rs.any fun r => r.1 ≤ c.toNat && c.toNat ≤ r.2

/-- Whether the ranges ascend, with a code point between any two of them. -/
def ascend : Ranges → Bool
  | [] => true
  | [r] => r.1 ≤ r.2
  | r :: s :: more => r.1 ≤ r.2 && r.2 + 1 < s.1 && ascend (s :: more)

/-- The number of code points in the ranges. -/
def count (rs : Ranges) : Nat := rs.foldl (fun n r => n + (r.2 + 1 - r.1)) 0

end Ranges

end SyntaxLint.Text
