import SyntaxLint.Lint.Inspection
import SyntaxLint.View.Rules

/-!
# Linting — empty enums

An enum declaration should declare a constant.  The finding is shown at the declared name.
-/

namespace SyntaxLint.EmptyEnum

/-- What is reported for an enum of a given name. -/
def message (name : String) : String := "Enum '" ++ name ++ "' declares no constants"

/-- The name of a declaration without constants. -/
def finding (d : EnumDeclaration) : Except MissingChild (Option QualifiedName) := do
  let name ← d.qualifiedName
  if d.enumeratives.isEmpty then return View.of? .qualifiedName name else return none

/-- Checks an enum declaration. -/
def check (r : Reporter) (d : EnumDeclaration) (f : Findings) :
    Findings × Except MissingChild Unit :=
  match finding d with
  | .ok (some name) => (r.report name.node (message name.shortName) [] f, .ok ())
  | .ok none => (f, .ok ())
  | .error e => (f, .error e)

/-- Checks enum declarations and goes on beside them. -/
def visitor (r : Reporter) : Visitor Findings :=
  { Visitor.silent with
    handles := (· == .rules)
    production
      | .enumDeclaration => some fun n f =>
        match View.of? .enumDeclaration n with
        | some d => (r.check n (check r d) f, .skip)
        | none => (f, .skip)
      | _ => none }

/-- Enums should declare constants. -/
def inspection : Inspection where
  id := "drools-empty-enum"
  description := "Enum declarations should declare at least one constant"
  language := .rules
  severity := .warning
  visitor := visitor

end SyntaxLint.EmptyEnum
