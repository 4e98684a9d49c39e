import SyntaxLint.Json.Double

/-!
# JSON — values

A JSON value, with the members of objects in the order of the text.  A text can hold literals that
denote nothing: a number past the largest double, or a string with half of a surrogate pair.  Such
a literal has its place in a value, since a reader may pass over it, but it is no value itself.

* `Json.isSound`: nothing in a value is without meaning and it is not nested too deep.
* `Json.canonical`: a value with the members of objects sorted, the last of equal keys kept.
-/

namespace SyntaxLint

namespace Json

/-- A number: an integer of 64 bits, signed or not, or a double. -/
inductive Number where
  | integer (n : Int)
  | double (x : Double)
  deriving DecidableEq, Repr, Inhabited

end Json

/-- A JSON value. -/
inductive Json where
  | null
  | bool (b : Bool)
  | number (n : Json.Number)
  | string (s : String)
  | array (items : List Json)
  | object (members : List (String × Json))
  /-- a literal that denotes nothing -/
  | meaningless
  deriving Repr, Inhabited

namespace Json

/-- The number `n`. -/
def nat (n : Nat) : Json := .number (.integer n)

/-- The greatest number of arrays and objects around a value that is read. -/
def maxNesting : Nat := 127

mutual

/-- Whether a value has a meaning throughout and at most `budget` arrays and objects nested. -/
def isSound (budget : Nat) : Json → Bool
  | .null | .bool _ | .number _ | .string _ => true
  | .array items =>
    match budget with
    | 0 => false
    | budget + 1 => areSound budget items
  | .object members =>
    match budget with
    | 0 => false
    | budget + 1 => membersSound budget members
  | .meaningless => false

def areSound (budget : Nat) : List Json → Bool
  | [] => true
  | v :: more => v.isSound budget && areSound budget more

def membersSound (budget : Nat) : List (String × Json) → Bool
  | [] => true
  | (_, v) :: more => v.isSound budget && membersSound budget more

end

/-- Members sorted by key, with one more: it replaces a member of its key. -/
def insertMember (key : String) (value : Json) : List (String × Json) → List (String × Json)
  | [] => [(key, value)]
  | (k, v) :: more =>
    if key < k then (key, value) :: (k, v) :: more
    else if key = k then (key, value) :: more
    else (k, v) :: insertMember key value more

mutual

/-- The value with the members of all objects sorted by key, the last of equal keys kept. -/
def canonical : Json → Json
  | .array items => .array (canonicalItems items)
  | .object members => .object (canonicalMembers members [])
  | v => v

def canonicalItems : List Json → List Json
  | [] => []
  | v :: more => v.canonical :: canonicalItems more

def canonicalMembers : List (String × Json) → List (String × Json) → List (String × Json)
  | [], sorted => sorted
  | (k, v) :: more, sorted => canonicalMembers more (insertMember k v.canonical sorted)

end

end Json

end SyntaxLint
