import SyntaxLint.Json.Printer

/-!
# Settings — the schema

What the JSON value of a settings file has to look like: an object with the optional keys `$schema`
(a string), `inspections` (an object of levels), `exclude` (an array of strings) and
`max_fix_iterations` (an integer from 1 on), and no other.  A level is a boolean or one of
`error`, `warning`, `info` and `off`.  A double without a fraction is an integer here.

* `Schema.check`: the first violation, in the order of the keys, or none.
-/

namespace SyntaxLint.Schema

/-- How a value breaks the schema. -/
inductive Fault where
  | notOfType (value : Json) (type : String)
  | belowMinimum (value : Json)
  | unexpectedKey (key : String)
  | noAlternative (value : Json)
  deriving Repr

/-- A fault and the keys and indices that lead to the value at fault. -/
structure Violation where
  path : List String
  fault : Fault
  deriving Repr

def Fault.message : Fault → String
  | notOfType value type => value.compact ++ " is not of type \"" ++ type ++ "\""
  | belowMinimum value => value.compact ++ " is less than the minimum of 1"
  | unexpectedKey key => "Additional properties are not allowed ('" ++ key ++ "' was unexpected)"
  | noAlternative value =>
    value.compact ++ " is not valid under any of the schemas listed in the 'oneOf' keyword"

/-- A key as a segment of a JSON pointer. -/
def escapeSegment (key : String) : String :=
  String.ofList (key.toList.flatMap fun c =>
    if c = '~' then ['~', '0'] else if c = '/' then ['~', '1'] else [c])

/-- A JSON pointer. -/
def pointer (path : List String) : String :=
  String.join (path.map fun key => "/" ++ escapeSegment key)

def Violation.message (v : Violation) : String := v.fault.message ++ " at " ++ pointer v.path

/-- The names of levels. -/
def levels : List String := ["error", "warning", "info", "off"]

/-- Whether a value is a level. -/
def isLevel : Json → Bool
  | .bool _ => true
  | .string s => levels.contains s
  | _ => false

/-- Whether a value is a number without a fraction. -/
def isInteger : Json → Bool
  | .number (.integer _) => true
  | .number (.double x) => x.isWhole
  | _ => false

/-- Whether a number without a fraction is less than 1. -/
def isBelowOne : Json → Bool
  | .number (.integer n) => n < 1
  | .number (.double x) => x.negative || x.magnitude.mantissa == 0
  | _ => false

/-- Refuses a value that is no string. -/
def checkString (path : List String) : Json → Except Violation Unit
  | .string _ => .ok ()
  | v => .error ⟨path, .notOfType v "string"⟩

/-- Refuses members that are no levels. -/
def checkLevels (path : List String) : List (String × Json) → Except Violation Unit
  | [] => .ok ()
  | (key, v) :: more =>
    if isLevel v then checkLevels path more else .error ⟨path ++ [key], .noAlternative v⟩

/-- Refuses items, the first of which has the given index, that are no strings. -/
def checkStrings (path : List String) (index : Nat) : List Json → Except Violation Unit
  | [] => .ok ()
  | v :: more => do
    checkString (path ++ [toString index]) v
    checkStrings path (index + 1) more

/-- Refuses a value that is no integer from 1 on. -/
def checkCount (path : List String) (v : Json) : Except Violation Unit :=
  if !isInteger v then .error ⟨path, .notOfType v "integer"⟩
  else if isBelowOne v then .error ⟨path, .belowMinimum v⟩
  else .ok ()

/-- Refuses a member that is not as its key wants it, or has no business here. -/
def checkMember (key : String) (v : Json) : Except Violation Unit :=
  match key, v with
  | "$schema", v => checkString ["$schema"] v
  | "inspections", .object members => checkLevels ["inspections"] members
  | "inspections", v => .error ⟨["inspections"], .notOfType v "object"⟩
  | "exclude", .array items => checkStrings ["exclude"] 0 items
  | "exclude", v => .error ⟨["exclude"], .notOfType v "array"⟩
  | "max_fix_iterations", v => checkCount ["max_fix_iterations"] v
  | key, _ => .error ⟨[], .unexpectedKey key⟩

/-- Checks members in their order. -/
def checkMembers : List (String × Json) → Except Violation Unit
  | [] => .ok ()
  | (key, v) :: more => do
    checkMember key v
    checkMembers more

/-- Checks a whole settings value. -/
def check : Json → Except Violation Unit
  | .object members => checkMembers members
  | v => .error ⟨[], .notOfType v "object"⟩

end SyntaxLint.Schema
