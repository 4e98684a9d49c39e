import SyntaxLint.Tree.Event
import SyntaxLint.Template.Name

/-!
# Templates — sketches

A template in its plainest form: elements without content, one a line, whose attributes are set off
by one space and whose values stand in double quotes.  A sketch can leave out the name of an
attribute, which no text does.
-/

namespace SyntaxLint.Template.Sketch

/-- An attribute, with or without name and value. -/
structure Attr where
  name : Option String
  value : Option String
  deriving DecidableEq, Repr, Inhabited

/-- An element without content. -/
structure Elem where
  tag : String
  attributes : List Attr
  deriving DecidableEq, Repr, Inhabited

def valueEvents (value : String) : List Event :=
  [.token .equals "=", .start .attributeValue, .token .quote "\""] ++
    (if value.isEmpty then [] else [.token .valueText value]) ++ [.token .quote "\"", .finish]

/-- The nodes of an attribute; one without a name binds a property. -/
def Attr.events (a : Attr) : List Event :=
  .start ((a.name.map AttributeName.kind).getD .propertyBinding) ::
    ((a.name.map fun s => [Event.token .attributeName s]).getD [] ++
      (a.value.map valueEvents).getD [] ++ [.finish])

def Elem.events (e : Elem) : List Event :=
  [.start .element, .start .startTag, .token .tagOpen "<", .token .tagName e.tag] ++
    e.attributes.flatMap (fun a => .token .whitespace " " :: a.events) ++
    [.token .tagClose ">", .finish, .start .endTag, .token .tagOpen "</", .token .tagName e.tag,
      .token .tagClose ">", .finish, .finish]

/-- The nodes of a template. -/
def events (elements : List Elem) : List Event :=
  .start .document :: List.intercalate [.token .text "\n"] (elements.map Elem.events) ++ [.finish]

/-- The tree of a template. -/
def tree (identity : TreeId) (elements : List Elem) : Except TreeError Tree :=
  Tree.ofEvents identity (events elements)

end SyntaxLint.Template.Sketch
