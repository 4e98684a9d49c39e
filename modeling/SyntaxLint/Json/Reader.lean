import SyntaxLint.Json.Value

/-!
# JSON — reading

Reads the texts that RFC 8259 allows and no others.  An integer that fits 64 bits, signed or not,
is an integer, and so is nothing else; `-0` is a double.  Of a longer significand the digits that
would not fit 64 bits unsigned are dropped.  Values may nest to any depth here: how deep they may
be depends on what is made of them.

* `Json.read`: the value of a text.
-/

namespace SyntaxLint.Json

/-- A text without the blanks it begins with. -/
def skipBlanks : List Char → List Char
  | c :: cs => if c = ' ' || c = '\n' || c = '\t' || c = '\r' then skipBlanks cs else c :: cs
  | [] => []

/-! ### Strings -/

/-- The value of a hexadecimal digit. -/
def hexValue? (c : Char) : Option Nat :=
  if '0' ≤ c && c ≤ '9' then some (c.toNat - '0'.toNat)
  else if 'a' ≤ c && c ≤ 'f' then some (c.toNat - 'a'.toNat + 10)
  else if 'A' ≤ c && c ≤ 'F' then some (c.toNat - 'A'.toNat + 10)
  else none

/-- The number of four hexadecimal digits. -/
def hexUnit? (a b c d : Char) : Option Nat := do
  return 4096 * (← hexValue? a) + 256 * (← hexValue? b) + 16 * (← hexValue? c) + (← hexValue? d)

/-- The character after a backslash that stands for one character. -/
def shortEscape? (c : Char) : Option Char :=
  if c = '"' || c = '\\' || c = '/' then some c
  else if c = 'b' then some '\x08'
  else if c = 'f' then some '\x0c'
  else if c = 'n' then some '\n'
  else if c = 'r' then some '\r'
  else if c = 't' then some '\t'
  else none

/-- Reads a string after its opening quote: its code points, where a half of a surrogate pair is
one of its own, and the text after the closing quote. -/
def readUnits : List Char → Option (List Nat × List Char)
  | [] => none
  | '"' :: cs => some ([], cs)
  | '\\' :: 'u' :: a :: b :: c :: d :: cs => do
    let unit ← hexUnit? a b c d
    let (units, rest) ← readUnits cs
    return (unit :: units, rest)
  | '\\' :: e :: cs => do
    let c ← shortEscape? e
    let (units, rest) ← readUnits cs
    return (c.toNat :: units, rest)
  | c :: cs =>
    if c.toNat < 32 then none
    else do
      let (units, rest) ← readUnits cs
      return (c.toNat :: units, rest)

/-- Whether a code point is the first half of a surrogate pair. -/
def isHigh (u : Nat) : Bool := 0xD800 ≤ u && u < 0xDC00

/-- Whether a code point is the second half of a surrogate pair. -/
def isLow (u : Nat) : Bool := 0xDC00 ≤ u && u < 0xE000

/-- The characters of code points with every surrogate pair joined; none if a half stands
alone. -/
def joinUnits : List Nat → Option (List Char)
  | [] => some []
  | u :: us =>
    if isHigh u then
      match us with
      | v :: vs =>
        if isLow v then
          (joinUnits vs).map (Char.ofNat (0x10000 + 0x400 * (u - 0xD800) + (v - 0xDC00)) :: ·)
        else none
      | [] => none
    else if isLow u then none
    else (joinUnits us).map (Char.ofNat u :: ·)

/-- Reads a string after its opening quote; its text is none if it denotes nothing. -/
def readString (cs : List Char) : Option (Option String × List Char) :=
  (readUnits cs).map fun r => ((joinUnits r.1).map String.ofList, r.2)

/-! ### Numbers -/

/-- A number as written. -/
structure Numeral where
  negative : Bool
  whole : List Nat
  fraction : List Nat
  exponent : Option Int
  deriving DecidableEq, Repr, Inhabited

/-- The digits that a text begins with, and the rest. -/
def readDigits (cs : List Char) : List Nat × List Char :=
  ((cs.takeWhile Char.isDigit).map fun c => c.toNat - '0'.toNat, cs.dropWhile Char.isDigit)

/-- The digits before the point: a zero stands alone. -/
def readWhole (cs : List Char) : Option (List Nat × List Char) :=
  match readDigits cs with
  | ([], _) => none
  | (0 :: _ :: _, _) => none
  | r => some r

/-- The point and the digits after it, if there is one. -/
def readFraction : List Char → Option (List Nat × List Char)
  | '.' :: cs =>
    match readDigits cs with
    | ([], _) => none
    | r => some r
  | cs => some ([], cs)

/-- The number that decimal digits write. -/
def ofDigits (ds : List Nat) : Nat := ds.foldl (fun n d => 10 * n + d) 0

/-- The sign of an exponent, and the rest. -/
def readSign : List Char → Bool × List Char
  | '-' :: cs => (true, cs)
  | '+' :: cs => (false, cs)
  | cs => (false, cs)

/-- The exponent, if there is one. -/
def readExponent : List Char → Option (Option Int × List Char)
  | c :: cs =>
    if c = 'e' || c = 'E' then
      let sign := readSign cs
      match readDigits sign.2 with
      | ([], _) => none
      | (ds, rest) => some (some (if sign.1 then -(ofDigits ds : Int) else ofDigits ds), rest)
    else some (none, c :: cs)
  | [] => some (none, [])

/-- Reads a number as written. -/
def readNumeral (cs : List Char) : Option (Numeral × List Char) := do
  let (negative, cs) := match cs with
    | '-' :: cs => (true, cs)
    | cs => (false, cs)
  let (whole, cs) ← readWhole cs
  let (fraction, cs) ← readFraction cs
  let (exponent, cs) ← readExponent cs
  return (⟨negative, whole, fraction, exponent⟩, cs)

/-- Appends digits to a significand while it fits 64 bits, and counts those that do not. -/
def absorb (significand : Nat) : List Nat → Nat × Nat
  | [] => (significand, 0)
  | d :: ds =>
    if 10 * significand + d < Nat.pow 2 64 then absorb (10 * significand + d) ds
    else (significand, ds.length + 1)

/-- A numeral as a double. -/
def Numeral.double (n : Numeral) : Option Double :=
  let whole := absorb 0 n.whole
  let all := absorb whole.1 n.fraction
  Double.ofDecimal n.negative all.1
    ((whole.2 : Int) - ((n.fraction.length : Int) - all.2) + n.exponent.getD 0)

/-- The number that a numeral writes. -/
def Numeral.number (n : Numeral) : Option Number :=
  let value := ofDigits n.whole
  if n.fraction.isEmpty && n.exponent.isNone then
    if n.negative then
      if 0 < value && value ≤ Nat.pow 2 63 then some (.integer (-value)) else n.double.map .double
    else if value < Nat.pow 2 64 then some (.integer value)
    else n.double.map .double
  else n.double.map .double

/-! ### Values -/

/-- An object of members read, unless a key denotes nothing. -/
def ofMembers (members : List (Option String × Json)) : Json :=
  match members.mapM fun m => m.1.map (·, m.2) with
  | some members => .object members
  | none => .meaningless

mutual

/-- Reads a value.  The first argument bounds the steps; twice the length of the text and two more
are enough. -/
def readValue : Nat → List Char → Option (Json × List Char)
  | 0, _ => none
  | steps + 1, cs =>
    match skipBlanks cs with
    | 'n' :: 'u' :: 'l' :: 'l' :: cs => some (.null, cs)
    | 't' :: 'r' :: 'u' :: 'e' :: cs => some (.bool true, cs)
    | 'f' :: 'a' :: 'l' :: 's' :: 'e' :: cs => some (.bool false, cs)
    | '"' :: cs => do
      let (text, cs) ← readString cs
      return (match text with | some s => .string s | none => .meaningless, cs)
    | '[' :: cs =>
      match skipBlanks cs with
      | ']' :: cs => some (.array [], cs)
      | cs => do
        let (items, cs) ← readItems steps cs
        return (.array items, cs)
    | '\x7b' :: cs =>
      match skipBlanks cs with
      | '\x7d' :: cs => some (.object [], cs)
      | cs => do
        let (members, cs) ← readMembers steps cs
        return (ofMembers members, cs)
    | cs => do
      let (numeral, cs) ← readNumeral cs
      return (match numeral.number with | some n => .number n | none => .meaningless, cs)

/-- Reads the items of an array up to its end. -/
def readItems : Nat → List Char → Option (List Json × List Char)
  | 0, _ => none
  | steps + 1, cs => do
    let (v, cs) ← readValue steps cs
    match skipBlanks cs with
    | ',' :: cs => do
      let (more, cs) ← readItems steps cs
      return (v :: more, cs)
    | ']' :: cs => return ([v], cs)
    | _ => none

/-- Reads the members of an object up to its end. -/
def readMembers : Nat → List Char → Option (List (Option String × Json) × List Char)
  | 0, _ => none
  | steps + 1, cs =>
    match skipBlanks cs with
    | '"' :: cs => do
      let (key, cs) ← readString cs
      match skipBlanks cs with
      | ':' :: cs => do
        let (v, cs) ← readValue steps cs
        match skipBlanks cs with
        | ',' :: cs => do
          let (more, cs) ← readMembers steps cs
          return ((key, v) :: more, cs)
        | '\x7d' :: cs => return ([(key, v)], cs)
        | _ => none
      | _ => none
    | _ => none

end

/-- The value of a text, which holds nothing else but blanks. -/
def read (text : String) : Option Json := do
  let cs := text.toList
  let (v, rest) ← readValue (2 * cs.length + 2) cs
  match skipBlanks rest with
  | [] => some v
  | _ => none

end SyntaxLint.Json
