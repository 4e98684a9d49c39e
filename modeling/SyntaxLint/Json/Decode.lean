import SyntaxLint.Json.Value
import SyntaxLint.Kind
import SyntaxLint.Span

/-!
# JSON — decoding records

How the fields of a record are found in a value.  A record is an object in any order, whose unknown
keys are passed over and whose known keys stand once, or an array of its fields in order.  A decoder
takes the number of arrays and objects that may still be nested.

* `Json.fields?`: the fields of a record.
* `Json.required`, `Json.defaulted`, `Json.optional`: what becomes of one field.
-/

namespace SyntaxLint

namespace Json

/-- The fields of a record in the order asked for. -/
structure Fields where
  /-- whether the record is written as an array -/
  listed : Bool
  values : List (Option Json)

/-- The only member of a key; none if there are two. -/
def member? (key : String) (members : List (String × Json)) : Option (Option Json) :=
  match members.filter (·.1 == key) with
  | [] => some none
  | [(_, v)] => some (some v)
  | _ => none

/-- The fields of the given names. -/
def fields? (names : List String) : Json → Option Fields
  | .object members => (names.mapM (member? · members)).map (⟨false, ·⟩)
  | .array items =>
    if items.length ≤ names.length then
      some ⟨true, items.map some ++ List.replicate (names.length - items.length) none⟩
    else none
  | _ => none

variable {α : Type}

/-- A field that has to be there. -/
def required (decode : Json → Option α) (field : Option Json) : Option α := field.bind decode

/-- A field with a value of its own when it is not there. -/
def defaulted (default : α) (decode : Json → Option α) : Option Json → Option α
  | none => some default
  | some v => decode v

/-- A field that may be null, and in an object may be missing. -/
def optional (listed : Bool) (decode : Json → Option α) : Option Json → Option (Option α)
  | none => if listed then none else some none
  | some .null => some none
  | some v => (decode v).map some

/-- A text. -/
def asString? : Json → Option String
  | .string s => some s
  | _ => none

/-- A whole number below `limit`. -/
def asNat? (limit : Nat) : Json → Option Nat
  | .number (.integer n) => if 0 ≤ n && n < limit then some n.toNat else none
  | _ => none

/-- A whole number of 32 bits. -/
def asWord? (v : Json) : Option Nat := asNat? (Nat.pow 2 32) v

/-- A number is read if it is below the limit. -/
theorem asNat?_nat (limit n : Nat) : (nat n).asNat? limit = if n < limit then some n else none := by
  simp [asNat?, nat]

theorem lt_of_asNat? {limit n : Nat} {v : Json} (h : v.asNat? limit = some n) : n < limit := by
  unfold asNat? at h
  split at h
  case h_1 z =>
    obtain ⟨within, rfl⟩ := (Option.ite_none_right_eq_some.1 h).imp_right Option.some.inj
    simp at within
    omega
  case h_2 => cases h

/-- The values of an array. -/
def asList? (decode : Json → Option α) : Json → Option (List α)
  | .array items => items.mapM decode
  | _ => none

/-- A name out of an enumeration: a text, or an object of that one key with null. -/
def asName? (budget : Nat) : Json → Option String
  | .string s => some s
  | .object [(s, .null)] => if budget = 0 then none else some s
  | _ => none

end Json

/-- A kind by its name. -/
def Kind.ofJson? (budget : Nat) (v : Json) : Option Kind := (v.asName? budget).bind Kind.ofName?

/-- A span as a record. -/
def Span.ofJson? : Nat → Json → Option Span
  | 0, _ => none
  | _ + 1, v => do
    match (← v.fields? ["start", "end"]).values with
    | [start, stop] =>
      return ⟨← Json.required Json.asWord? start, ← Json.required Json.asWord? stop⟩
    | _ => none

def Position.ofJson? : Nat → Json → Option Position
  | 0, _ => none
  | _ + 1, v => do
    match (← v.fields? ["line", "column"]).values with
    | [line, column] =>
      return ⟨← Json.required Json.asWord? line, ← Json.required Json.asWord? column⟩
    | _ => none

def Location.ofJson? : Nat → Json → Option Location
  | 0, _ => none
  | budget + 1, v => do
    match (← v.fields? ["start", "end"]).values with
    | [start, stop] =>
      return ⟨← Json.required (Position.ofJson? budget) start,
        ← Json.required (Position.ofJson? budget) stop⟩
    | _ => none

def Kind.toJson (k : Kind) : Json := .string k.name

def Span.toJson (s : Span) : Json := .object [("end", .nat s.stop), ("start", .nat s.start)]

def Position.toJson (p : Position) : Json :=
  .object [("column", .nat p.column), ("line", .nat p.line)]

def Location.toJson (l : Location) : Json :=
  .object [("end", l.stop.toJson), ("start", l.start.toJson)]

end SyntaxLint
