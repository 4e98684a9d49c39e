import SyntaxLint.Tree.Basic

/-!
# Linting — diagnostics

A diagnostic says what is wrong and where: its anchor is the node to show and the node that its
fixes may change.  A fix is plain data, so a diagnostic can be stored and applied later.
-/

namespace SyntaxLint

/-- How serious a diagnostic is. -/
inductive Severity where
  | error
  | warning
  | info
  deriving DecidableEq, Repr, Inhabited

/-- The name a severity goes by. -/
def Severity.name : Severity → String
  | .error => "error"
  | .warning => "warning"
  | .info => "info"

/-- The severity of a given name. -/
def Severity.ofName? (s : String) : Option Severity :=
  [Severity.error, .warning, .info].find? (·.name == s)

/-- What can be done about a diagnostic on an attribute. -/
inductive Fix where
  /-- the name of the attribute becomes `[@trigger]` -/
  | rename (trigger : String)
  /-- the attribute is left with its name alone -/
  | removeValue
  deriving DecidableEq, Repr, Inhabited

namespace Fix

/-- The name of a fix in stored diagnostics. -/
def id : Fix → String
  | rename _ => "rename-to-binding-form"
  | removeValue => "remove-value-range"

/-- What a user is shown. -/
def title : Fix → String
  | rename trigger => "Bind to property [@" ++ trigger ++ "]"
  | removeValue => "Remove attribute value"

/-- The group a fix is shown in. -/
def family : Fix → String
  | _ => "Angular"

end Fix

/-- The node a diagnostic is about, as it was then, and the node that fixes may change. -/
structure Anchor where
  tree : TreeId
  node : NodeId
  kind : Kind
  span : Span
  target : Option NodeId
  deriving DecidableEq, Repr, Inhabited

/-- The anchor at a node; fixes may change its parent. -/
def Anchor.at (t : Tree) (n : Placed) : Anchor := ⟨t.identity, n.id, n.kind, n.span, n.parent⟩

/-- Something found in a tree. -/
structure Diagnostic where
  inspection : String
  message : String
  severity : Severity
  anchor : Anchor
  location : Option Location
  fixes : List Fix
  deriving DecidableEq, Repr, Inhabited

namespace Diagnostic

/-- The span of the anchor when the diagnostic was made. -/
def span (d : Diagnostic) : Span := d.anchor.span

/-- Diagnostics in order of their spans, then of the inspections that made them. -/
def compare (a b : Diagnostic) : Ordering :=
  (a.span.compare b.span).then (Ord.compare a.inspection b.inspection)

/-- Diagnostics in order; equal ones keep the order they are in. -/
def sort (ds : List Diagnostic) : List Diagnostic := ds.mergeSort fun a b => compare a b != .gt

end Diagnostic

end SyntaxLint
