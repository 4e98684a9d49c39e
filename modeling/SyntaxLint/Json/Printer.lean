import SyntaxLint.Json.Value

/-!
# JSON — writing

Values are written compactly or, two blanks a level, over several lines.  In a string the quote,
the backslash and control characters are escaped and every other character stands for itself.

Each writer takes the text that follows and puts its own in front.
-/

namespace SyntaxLint.Json

/-- A digit from 0 to 15. -/
def hexDigit (n : Nat) : Char := Nat.digitChar n

/-- A character inside a string. -/
def writeChar (c : Char) (after : List Char) : List Char :=
  if c = '"' then '\\' :: '"' :: after
  else if c = '\\' then '\\' :: '\\' :: after
  else if c = '\n' then '\\' :: 'n' :: after
  else if c = '\r' then '\\' :: 'r' :: after
  else if c = '\t' then '\\' :: 't' :: after
  else if c = '\x08' then '\\' :: 'b' :: after
  else if c = '\x0c' then '\\' :: 'f' :: after
  else if c.toNat < 32 then
    '\\' :: 'u' :: '0' :: '0' :: hexDigit (c.toNat / 16) :: hexDigit (c.toNat % 16) :: after
  else c :: after

/-- A string with its quotes. -/
def writeString (s : String) (after : List Char) : List Char :=
  '"' :: s.toList.foldr writeChar ('"' :: after)

/-- A number. -/
def writeNumber : Number → List Char
  | .integer n => (toString n).toList
  | .double x => x.print

mutual

/-- A value without blanks. -/
def writeCompact : Json → List Char → List Char
  | .null, after => 'n' :: 'u' :: 'l' :: 'l' :: after
  | .bool true, after => 't' :: 'r' :: 'u' :: 'e' :: after
  | .bool false, after => 'f' :: 'a' :: 'l' :: 's' :: 'e' :: after
  | .number n, after => writeNumber n ++ after
  | .string s, after => writeString s after
  | .array [], after => '[' :: ']' :: after
  | .array (v :: more), after => '[' :: writeCompact v (writeCompactItems more after)
  | .object [], after => '\x7b' :: '\x7d' :: after
  | .object ((k, v) :: more), after =>
    '\x7b' :: writeString k (':' :: writeCompact v (writeCompactMembers more after))
  | .meaningless, after => 'n' :: 'u' :: 'l' :: 'l' :: after

def writeCompactItems : List Json → List Char → List Char
  | [], after => ']' :: after
  | v :: more, after => ',' :: writeCompact v (writeCompactItems more after)

def writeCompactMembers : List (String × Json) → List Char → List Char
  | [], after => '\x7d' :: after
  | (k, v) :: more, after =>
    ',' :: writeString k (':' :: writeCompact v (writeCompactMembers more after))

end

/-- A new line, indented. -/
def newline (level : Nat) (after : List Char) : List Char :=
  '\n' :: (List.replicate (2 * level) ' ' ++ after)

mutual

/-- A value over several lines, inside `level` arrays and objects. -/
def writePretty (level : Nat) : Json → List Char → List Char
  | .null, after => 'n' :: 'u' :: 'l' :: 'l' :: after
  | .bool true, after => 't' :: 'r' :: 'u' :: 'e' :: after
  | .bool false, after => 'f' :: 'a' :: 'l' :: 's' :: 'e' :: after
  | .number n, after => writeNumber n ++ after
  | .string s, after => writeString s after
  | .array [], after => '[' :: ']' :: after
  | .array (v :: more), after =>
    '[' :: newline (level + 1) (writePretty (level + 1) v (writePrettyItems level more after))
  | .object [], after => '\x7b' :: '\x7d' :: after
  | .object ((k, v) :: more), after =>
    '\x7b' :: newline (level + 1) (writeString k (':' :: ' ' ::
      writePretty (level + 1) v (writePrettyMembers level more after)))
  | .meaningless, after => 'n' :: 'u' :: 'l' :: 'l' :: after

def writePrettyItems (level : Nat) : List Json → List Char → List Char
  | [], after => newline level (']' :: after)
  | v :: more, after =>
    ',' :: newline (level + 1) (writePretty (level + 1) v (writePrettyItems level more after))

def writePrettyMembers (level : Nat) : List (String × Json) → List Char → List Char
  | [], after => newline level ('\x7d' :: after)
  | (k, v) :: more, after =>
    ',' :: newline (level + 1) (writeString k (':' :: ' ' ::
      writePretty (level + 1) v (writePrettyMembers level more after)))

end

/-- The text of a value without blanks. -/
def compact (v : Json) : String := String.ofList (writeCompact v [])

/-- The text of a value over several lines. -/
def pretty (v : Json) : String := String.ofList (writePretty 0 v [])

end SyntaxLint.Json
