import SyntaxLint.Text.Ranges

/-!
# Text — character classes

Blank characters are those of the Unicode property White_Space.  Letters of tag names are folded
within ASCII only, so a character outside ASCII is equal to itself alone.
-/

namespace SyntaxLint.Text

/-- The code points with the property White_Space. -/
def blankRanges : Ranges :=
  [(0x9, 0xD), (0x20, 0x20), (0x85, 0x85), (0xA0, 0xA0), (0x1680, 0x1680), (0x2000, 0x200A),
    (0x2028, 0x2029), (0x202F, 0x202F), (0x205F, 0x205F), (0x3000, 0x3000)]

/-- Whether a character is white space. -/
def isBlank (c : Char) : Bool := blankRanges.has c

/-- The text with the letters A to Z in lower case. -/
def lower (cs : List Char) : List Char := cs.map Char.toLower

/-- Whether two texts are equal up to the case of the letters A to Z. -/
def sameFolded (as bs : List Char) : Bool := lower as == lower bs

/-- Whether the text begins with `head`, up to the case of the letters A to Z. -/
def startsFolded (head cs : List Char) : Bool :=
  (lower head).isPrefixOf (lower (cs.take head.length))

/-- The longest beginning of a text at none of whose characters `stop` holds of the text from
there on, and the rest. -/
def spanUntil (stop : List Char → Bool) : List Char → List Char × List Char
  | [] => ([], [])
  | c :: cs =>
    if stop (c :: cs) then ([], c :: cs)
    else (c :: (spanUntil stop cs).1, (spanUntil stop cs).2)

/-- Spanning loses nothing. -/
theorem spanUntil_append (stop : List Char → Bool) (cs : List Char) :
    (spanUntil stop cs).1 ++ (spanUntil stop cs).2 = cs := by
  induction cs with
  | nil => rfl
  | cons c cs ih =>
    by_cases h : stop (c :: cs) <;> simp [spanUntil, h, ih]

/-- What is left begins where the span stops, or nothing is left. -/
theorem spanUntil_rest (stop : List Char → Bool) (cs : List Char) :
    (spanUntil stop cs).2 = [] ∨ stop (spanUntil stop cs).2 = true := by
  induction cs with
  | nil => exact .inl rfl
  | cons c cs ih =>
    by_cases h : stop (c :: cs)
    · exact .inr (by simp [spanUntil, h])
    · simpa [spanUntil, h] using ih

/-- What is left is no longer than the text. -/
theorem length_spanUntil_rest_le (stop : List Char → Bool) (cs : List Char) :
    (spanUntil stop cs).2.length ≤ cs.length := by
  conv => rhs; rw [← spanUntil_append stop cs]
  simp

end SyntaxLint.Text
