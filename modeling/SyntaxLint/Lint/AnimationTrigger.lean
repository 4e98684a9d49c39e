import SyntaxLint.Lint.Inspection
import SyntaxLint.View.Template

/-!
# Linting — animation triggers

A trigger `@name` that is given an expression has to be bound as `[@name]`.  The finding is shown at
the value; the trigger can be renamed or the value removed.
-/

namespace SyntaxLint.AnimationTrigger

/-- What is reported at a value. -/
def message : String :=
  "Assigning animation triggers via @prop=\"exp\" attributes with an expression is invalid."

/-- What is wrong with a property binding: the value to show and the name to bind.  Nothing is, if
its name does not begin with `@` or its value is empty. -/
def finding (b : PropertyBinding) : Except MissingChild (Option (AttributeValue × String)) := do
  let type ← b.bindingType
  let name ← b.name
  if type = .animation && name.toList.head? == some '@' then
    match b.valueElement? with
    | some value =>
      if value.text.isEmpty then return none
      else return some (value, ← b.propertyName)
    | none => return none
  else return none

/-- Checks a property binding. -/
def check (r : Reporter) (b : PropertyBinding) (f : Findings) :
    Findings × Except MissingChild Unit :=
  match finding b with
  | .ok (some (value, trigger)) =>
    (r.report value.node message [.rename trigger, .removeValue] f, .ok ())
  | .ok none => (f, .ok ())
  | .error e => (f, .error e)

/-- Checks property bindings and goes on beside them. -/
def visitor (r : Reporter) : Visitor Findings :=
  { Visitor.silent with
    handles := (· == .template)
    production
      | .propertyBinding => some fun n f =>
        match View.of? .propertyBinding n with
        | some b => (r.check n (check r b) f, .skip)
        | none => (f, .skip)
      | _ => none }

/-- Animation triggers given an expression must be bound. -/
def inspection : Inspection where
  id := "angular-animation-trigger-assignment"
  description := "Animation triggers with an expression must use [@trigger] binding syntax"
  language := .template
  severity := .error
  visitor := visitor

end SyntaxLint.AnimationTrigger
