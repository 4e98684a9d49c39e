import SyntaxLint.Lint.AnimationTrigger
import SyntaxLint.Lint.EmptyEnum
import SyntaxLint.Settings.Basic
import SyntaxLint.Text.Quoted

/-!
# Linting — inspectors

An inspector is a list of inspections, each with the severity of its findings.  A pass over a node
runs those for the language of that node, one after the other.

* `Inspector.inspect`: what a pass finds, in the order in which it is reported.
* `Inspector.run`: what a pass over a whole tree finds, in order of position.
-/

namespace SyntaxLint

/-- An inspection with the severity it reports at. -/
structure Registered where
  inspection : Inspection
  severity : Severity

/-- The inspections that are run, in order. -/
structure Inspector where
  registered : List Registered

/-- Why there is no inspector. -/
inductive InspectorError where
  | settings (e : SettingsError)
  | unknownInspection (id : String)
  deriving Repr

def InspectorError.message : InspectorError → String
  | settings e => e.message
  | unknownInspection id => "Unknown inspection: " ++ id

/-- The numbers of a pass. -/
structure Summary where
  inspections : Nat
  visited : Nat
  reported : Nat
  malformed : Nat
  deriving DecidableEq, Repr, Inhabited

/-- Every inspection there is. -/
def Inspection.builtin : List Inspection := [AnimationTrigger.inspection, EmptyEnum.inspection]

namespace Inspector

/-- No inspections. -/
def empty : Inspector := ⟨[]⟩

/-- The inspector with one more inspection. -/
def register (i : Inspector) (inspection : Inspection) (severity : Severity) : Inspector :=
  ⟨i.registered ++ [⟨inspection, severity⟩]⟩

/-- An inspection as settings want it, unless they turn it off. -/
def registered? (settings : Settings) (inspection : Inspection) : Option Registered :=
  match settings.level? inspection.id with
  | some level =>
    if level.isEnabled then some ⟨inspection, level.severity?.getD inspection.severity⟩ else none
  | none => some ⟨inspection, inspection.severity⟩

/-- The inspector of the given settings, which may name existing inspections only. -/
def ofSettings (settings : Settings) : Except InspectorError Inspector :=
  match settings.inspections.find? fun m => Inspection.builtin.all (·.id != m.1) with
  | some m => .error (.unknownInspection m.1)
  | none => .ok ⟨Inspection.builtin.filterMap (registered? settings)⟩

/-- Every inspection at its own severity. -/
def default : Inspector := ⟨Inspection.builtin.map fun i => ⟨i, i.severity⟩⟩

/-- The inspections by their ids, in brackets. -/
def label (i : Inspector) : String :=
  "[" ++ ", ".intercalate (i.registered.map fun r => Text.quoted r.inspection.id) ++ "]"

/-- The inspections that run on nodes of a language. -/
def matching (i : Inspector) (language : Language) : List Registered :=
  i.registered.filter (·.inspection.language == language)

/-- What one inspection adds to what was found below a node.  That it ends its walk early is of no
further consequence. -/
def Registered.inspect (t : Tree) (n : Placed) (f : Findings) (r : Registered) : Findings :=
  (n.walk (r.inspection.visitor ⟨t, r.inspection.id, r.severity⟩) f).1

/-- What a pass over a node and all below it finds. -/
def inspect (i : Inspector) (t : Tree) (n : Placed) : Findings :=
  (i.matching n.kind.language).foldl (Registered.inspect t n) .none

/-- The numbers of a pass over a node and all below it. -/
def summary (i : Inspector) (t : Tree) (n : Placed) : Summary where
  inspections := (i.matching n.kind.language).length
  visited := n.preorder.length
  reported := (i.inspect t n).reported
  malformed := (i.inspect t n).malformed

/-- What a pass over a tree finds. -/
def findings (i : Inspector) (t : Tree) : Findings := i.inspect t t.top

/-- The diagnostics of a tree in order of position. -/
def run (i : Inspector) (t : Tree) : List Diagnostic := Diagnostic.sort (i.findings t).diagnostics

end Inspector

end SyntaxLint
