import SyntaxLint.Kind

/-!
# Templates — attribute names

The name of an attribute says what the attribute is: `[x]`, `@x`, `bind-x` and `bindon-x` bind a
property, `(x)` and `on-x` an event, and any other name is plain.

* `AttributeName.kind`: which of the three an attribute of that name is.
* `AttributeName.binding`, `AttributeName.event`: what it binds, without the binding marks.
-/

namespace SyntaxLint

/-- What a property binding writes to. -/
inductive BindingType where
  | property
  | attr
  | cssClass
  | cssStyle
  | animation
  deriving DecidableEq, Repr, Inhabited

/-- The name a binding type goes by in output. -/
def BindingType.name : BindingType → String
  | property => "property"
  | attr => "attribute"
  | cssClass => "class"
  | cssStyle => "style"
  | animation => "animation"

namespace AttributeName

/-- What stands between the characters `left` and `right` that a name begins and ends with. -/
def wrapped? (left right : Char) (name : List Char) : Option (List Char) :=
  ([left].isPrefixOf? name).bind ([right].isSuffixOf? ·)

/-- What follows `head` in a name that goes on after it. -/
def headed? (head : String) (name : List Char) : Option (List Char) :=
  (head.toList.isPrefixOf? name).filter (· ≠ [])

/-- Whether a name is `@` with something after it. -/
def isTrigger : List Char → Bool
  | '@' :: _ :: _ => true
  | _ => false

/-- The kind of attribute that a name makes. -/
def kindOf (name : List Char) : Kind :=
  if (wrapped? '[' ']' name).isSome || isTrigger name || (headed? "bind-" name).isSome ||
      (headed? "bindon-" name).isSome then .propertyBinding
  else if (wrapped? '(' ')' name).isSome || (headed? "on-" name).isSome then .eventBinding
  else .plainAttribute

/-- A name without the marks that make it a property binding. -/
def bare (name : List Char) : List Char :=
  match wrapped? '[' ']' name with
  | some inner => (wrapped? '(' ')' inner).getD inner
  | none => ((headed? "bindon-" name).or (headed? "bind-" name)).getD name

/-- The binding type that the first of the given heads tells, and what follows that head. -/
def split (name : List Char) : List (String × BindingType) → BindingType × List Char
  | [] => (.property, name)
  | (head, type) :: more =>
    match head.toList.isPrefixOf? name with
    | some rest => (type, rest)
    | none => split name more

/-- The heads that tell what a binding writes to. -/
def heads : List (String × BindingType) :=
  [("@", .animation), ("attr.", .attr), ("class.", .cssClass), ("style.", .cssStyle)]

/-- What a property binding of a name writes to, and under which name. -/
def bindingOf (name : List Char) : BindingType × List Char := split (bare name) heads

/-- The event that an event binding of a name listens to. -/
def eventOf (name : List Char) : List Char :=
  ((wrapped? '(' ')' name).or (headed? "on-" name)).getD name

/-- The kind of attribute that a name makes. -/
def kind (name : String) : Kind := kindOf name.toList

/-- What a property binding writes to, and under which name. -/
def binding (name : String) : BindingType × String :=
  ((bindingOf name.toList).1, String.ofList (bindingOf name.toList).2)

/-- The event that an event binding listens to. -/
def event (name : String) : String := String.ofList (eventOf name.toList)

end AttributeName

end SyntaxLint
