import SyntaxLint.Text.Extending
import SyntaxLint.Text.Imageless
import SyntaxLint.Text.Number

/-!
# Text — in quotes

A text as it is shown to a reader who has to see every character of it: in double quotes, with the
quote and the backslash escaped, and with the number of each character that would not be seen.
-/

namespace SyntaxLint.Text

/-- Whether a character would not be seen: it has no image, or only one on the character before
it. -/
def isUnseen (c : Char) : Bool := isExtending c || isImageless c

/-- A character as it is shown between quotes. -/
def shown (c : Char) : List Char :=
  if c = '"' || c = '\\' then ['\\', c]
  else if c = '\n' then ['\\', 'n']
  else if c = '\r' then ['\\', 'r']
  else if c = '\t' then ['\\', 't']
  else if c.toNat = 0 then ['\\', '0']
  else if isUnseen c then number c
  else [c]

/-- A text in quotes. -/
def quoted (s : String) : String := String.ofList ('"' :: s.toList.flatMap shown ++ ['"'])

end SyntaxLint.Text
