import SyntaxLint.Settings.Schema
import SyntaxLint.Json.Decode
import SyntaxLint.Json.Reader
import SyntaxLint.Lint.Diagnostic

/-!
# Settings

Which inspections run and how seriously their findings are taken, which files are left out, and how
many rounds of fixes are made at most.

* `Settings.ofText`: the settings that a text gives, or why it gives none.
-/

namespace SyntaxLint

/-- The setting of one inspection. -/
inductive Level where
  | enabled (on : Bool)
  | named (name : String)
  deriving DecidableEq, Repr, Inhabited

namespace Level

/-- Whether the inspection runs. -/
def isEnabled : Level → Bool
  | enabled on => on
  | named name => name != "off"

/-- The severity asked for, if one is. -/
def severity? : Level → Option Severity
  | enabled _ => none
  | named name => Severity.ofName? name

/-- A level from JSON. -/
def ofJson? : Json → Option Level
  | .bool on => some (enabled on)
  | .string name => some (named name)
  | _ => none

/-- A level as JSON. -/
def toJson : Level → Json
  | enabled on => .bool on
  | named name => .string name

end Level

/-- The settings of a run. -/
structure Settings where
  /-- levels by the id of the inspection, in order of the ids -/
  inspections : List (String × Level)
  exclude : List String
  maxRounds : Nat
  deriving DecidableEq, Repr, Inhabited

/-- Why a text gives no settings. -/
inductive SettingsError where
  | notJson
  | violation (v : Schema.Violation)
  | unfit
  deriving Repr

def SettingsError.message : SettingsError → String
  | notJson => "Configuration error: Invalid JSON"
  | violation v => "Configuration error: Config validation failed: " ++ v.message
  | unfit => "Configuration error: Invalid config"

namespace Settings

/-- The settings without a settings file. -/
def default : Settings := ⟨[], [], 3⟩

/-- Levels from the members of an object. -/
def levels? : Json → Option (List (String × Level))
  | .object members => members.mapM fun m => (Level.ofJson? m.2).map (m.1, ·)
  | _ => none

/-- The settings that a value holds; what it does not hold is as without a settings file. -/
def ofJson? (v : Json) : Option Settings := do
  match (← v.fields? ["inspections", "exclude", "max_fix_iterations"]).values with
  | [inspections, exclude, maxRounds] =>
    return {
      inspections := ← Json.defaulted [] levels? inspections
      exclude := ← Json.defaulted [] (Json.asList? Json.asString?) exclude
      maxRounds := ← Json.defaulted default.maxRounds (Json.asNat? (Nat.pow 2 64)) maxRounds }
  | _ => none

/-- The settings that a text gives.  Of equal keys the last counts. -/
def ofText (text : String) : Except SettingsError Settings := do
  match Json.read text with
  | none => throw .notJson
  | some v =>
    if v.isSound Json.maxNesting then
      match Schema.check v.canonical with
      | .error e => throw (.violation e)
      | .ok () =>
        match ofJson? v.canonical with
        | some s => return s
        | none => throw .unfit
    else throw .notJson

/-- Settings as JSON. -/
def toJson (s : Settings) : Json :=
  .object [("exclude", .array (s.exclude.map .string)),
    ("inspections", .object (s.inspections.map fun m => (m.1, m.2.toJson))),
    ("max_fix_iterations", .nat s.maxRounds)]

/-- The level of an inspection, if it has one. -/
def level? (s : Settings) (id : String) : Option Level := s.inspections.lookup id

end Settings

end SyntaxLint
