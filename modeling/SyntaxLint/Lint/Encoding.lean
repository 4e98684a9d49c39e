import SyntaxLint.Lint.Diagnostic
import SyntaxLint.Json.Decode
import SyntaxLint.Json.Printer
import SyntaxLint.Json.Reader

/-!
# Linting — diagnostics as JSON

Optional parts that are absent, and an empty list of fixes, are left out.  A fix is an object with
its kind among the keys, given by name or by number; in it nothing may be without meaning, unknown
keys included.  In a report the keys of a diagnostic are sorted; on its own it has its fields in
order.

* `Diagnostic.toJson`, `Diagnostic.ofJson?`: writing a diagnostic for a report, and reading one.
* `Diagnostic.record`: a diagnostic with its fields in order.
-/

namespace SyntaxLint

namespace Fix

/-- A fix as JSON. -/
def toJson : Fix → Json
  | rename trigger => .object [("kind", .string (rename trigger).id), ("trigger", .string trigger)]
  | removeValue => .object [("kind", .string removeValue.id)]

/-- A fix of the kind that a tag names, whose trigger is that of the given members. -/
def ofTag? (members : List (String × Json)) (tag : Json) : Option Fix :=
  let rename? : Option Fix :=
    ((Json.member? "trigger" members).bind (Json.required Json.asString?)).map .rename
  match tag with
  | .string s =>
    if s == (rename "").id then rename? else if s == removeValue.id then some removeValue else none
  | .number (.integer n) =>
    if n = 0 then rename? else if n = 1 then some removeValue else none
  | _ => none

/-- A fix from JSON. -/
def ofJson? : Nat → Json → Option Fix
  | budget + 1, .object members =>
    if Json.membersSound budget members then
      (Json.member? "kind" members).bind (Json.required (ofTag? members))
    else none
  | _, _ => none

end Fix

def Severity.toJson (s : Severity) : Json := .string s.name

def Severity.ofJson? (budget : Nat) (v : Json) : Option Severity :=
  (v.asName? budget).bind Severity.ofName?

/-- A member that is left out when it has no value. -/
def memberOf {α : Type} (key : String) (encode : α → Json) : Option α → List (String × Json)
  | none => []
  | some a => [(key, encode a)]

namespace Anchor

/-- The anchor without the tree it belongs to, and with further members. -/
def toJsonWith (a : Anchor) (more : List (String × Json)) : Json :=
  .object ([("kind", a.kind.toJson), ("node", .nat a.node), ("span", a.span.toJson)] ++
    memberOf "target" Json.nat a.target ++ more)

/-- An anchor as JSON. -/
def toJson (a : Anchor) : Json := a.toJsonWith [("tree", .nat a.tree)]

/-- An anchor from JSON. -/
def ofJson? : Nat → Json → Option Anchor
  | 0, _ => none
  | budget + 1, v => do
    let fields ← v.fields? ["tree", "node", "kind", "span", "target"]
    match fields.values with
    | [tree, node, kind, span, target] =>
      return {
        tree := ← Json.required (Json.asNat? (Nat.pow 2 64)) tree
        node := ← Json.required Json.asWord? node
        kind := ← Json.required (Kind.ofJson? budget) kind
        span := ← Json.required (Span.ofJson? budget) span
        target := ← Json.optional fields.listed Json.asWord? target }
    | _ => none

end Anchor

namespace Diagnostic

/-- A diagnostic with its anchor as given. -/
def toJsonWith (d : Diagnostic) (anchor : Json) : Json :=
  .object ([("anchor", anchor)] ++
    memberOf "fixes" (fun fixes : List Fix => .array (fixes.map Fix.toJson))
      (if d.fixes.isEmpty then none else some d.fixes) ++
    [("inspection_id", .string d.inspection)] ++ memberOf "loc" Location.toJson d.location ++
    [("message", .string d.message), ("severity", d.severity.toJson)])

/-- A diagnostic as JSON. -/
def toJson (d : Diagnostic) : Json := d.toJsonWith d.anchor.toJson

/-- A list of fixes from JSON. -/
def fixes? : Nat → Json → Option (List Fix)
  | budget + 1, .array items => items.mapM (Fix.ofJson? budget)
  | _, _ => none

/-- A diagnostic from JSON. -/
def ofJson? : Nat → Json → Option Diagnostic
  | 0, _ => none
  | budget + 1, v => do
    let fields ← v.fields? ["inspection_id", "message", "severity", "anchor", "loc", "fixes"]
    match fields.values with
    | [inspection, message, severity, anchor, location, fixes] =>
      return {
        inspection := ← Json.required Json.asString? inspection
        message := ← Json.required Json.asString? message
        severity := ← Json.defaulted .error (Severity.ofJson? budget) severity
        anchor := ← Json.required (Anchor.ofJson? budget) anchor
        location := ← Json.optional fields.listed (Location.ofJson? budget) location
        fixes := ← Json.defaulted [] (fixes? budget) fixes }
    | _ => none

end Diagnostic

/-! ### Fields in order -/

def Span.record (s : Span) : Json := .object [("start", .nat s.start), ("end", .nat s.stop)]

def Position.record (p : Position) : Json :=
  .object [("line", .nat p.line), ("column", .nat p.column)]

def Location.record (l : Location) : Json :=
  .object [("start", l.start.record), ("end", l.stop.record)]

def Anchor.record (a : Anchor) : Json :=
  .object ([("tree", .nat a.tree), ("node", .nat a.node), ("kind", a.kind.toJson),
    ("span", a.span.record)] ++ memberOf "target" Json.nat a.target)

namespace Diagnostic

/-- The fixes of a diagnostic as a field, which is left out if there are none. -/
def fixesField (d : Diagnostic) : Option Json :=
  if d.fixes.isEmpty then none else some (.array (d.fixes.map Fix.toJson))

/-- A diagnostic with its fields in order. -/
def record (d : Diagnostic) : Json :=
  .object ([("inspection_id", .string d.inspection), ("message", .string d.message),
    ("severity", d.severity.toJson), ("anchor", d.anchor.record)] ++
    memberOf "loc" Location.record d.location ++ memberOf "fixes" id d.fixesField)

/-- The texts of a diagnostic: with its fields in order or its keys sorted, on one line or over
several. -/
def texts (d : Diagnostic) : List String :=
  [d.record.compact, d.record.pretty, d.toJson.compact, d.toJson.pretty]

/-- A diagnostic from its text. -/
def ofText? (text : String) : Option Diagnostic :=
  (Json.read text).bind (ofJson? Json.maxNesting)

end Diagnostic

end SyntaxLint
