/-!
# Text — characters by their number

A character that is not to be written as it is gives way to its number in hexadecimal digits.

* `Text.number`: any character by its number.
* `Text.tame`: a text without the characters that steer a terminal.
-/

namespace SyntaxLint.Text

/-- The number of a character, without leading zeros, between braces. -/
def number (c : Char) : List Char :=
  ['\\', 'u', '\x7b'] ++ Nat.toDigits 16 c.toNat ++ ['\x7d']

/-- The number of an ASCII character, in two digits. -/
def byteNumber (c : Char) : List Char :=
  ['\\', 'x', Nat.digitChar (c.toNat / 16), Nat.digitChar (c.toNat % 16)]

/-- Whether a character of ASCII steers a terminal: bell, backspace, form feed, escape or
delete. -/
def isSteering (c : Char) : Bool := [0x07, 0x08, 0x0C, 0x1B, 0x7F].contains c.toNat

/-- Whether a character is one of the control characters behind ASCII. -/
def isHighControl (c : Char) : Bool := 0x80 ≤ c.toNat && c.toNat ≤ 0x9F

/-- A character, by its number if it steers a terminal. -/
def tameChar (c : Char) : List Char :=
  if isSteering c then byteNumber c else if isHighControl c then number c else [c]

/-- A text with the characters that steer a terminal by their numbers. -/
def tame (s : String) : String := String.ofList (s.toList.flatMap tameChar)

end SyntaxLint.Text
