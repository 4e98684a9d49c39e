import SyntaxLint.View.Basic
import SyntaxLint.Template.Name

/-!
# Views — templates

Elements, attributes in their three forms, and attribute values.
-/

namespace SyntaxLint

/-- A value, quoted or not. -/
abbrev AttributeValue := View .attributeValue

/-- An element with its tags and what stands between them. -/
abbrev Element := View .element

/-- An attribute without binding marks. -/
abbrev PlainAttribute := View .plainAttribute

/-- An attribute that binds a property. -/
abbrev PropertyBinding := View .propertyBinding

/-- An attribute that binds an event. -/
abbrev EventBinding := View .eventBinding

namespace View

variable {k : Kind}

/-- The name token of an attribute in any form. -/
def nameElement (v : View k) : Except MissingChild Placed := v.node.required .attributeName

/-- The name of an attribute, binding marks and all. -/
def name (v : View k) : Except MissingChild String := v.nameElement.map (·.text)

/-- The value of an attribute, if it has one. -/
def valueElement? (v : View k) : Option AttributeValue :=
  (v.node.child? .attributeValue).bind (View.of? .attributeValue)

end View

namespace AttributeValue

/-- The value without its quotes. -/
def text (v : AttributeValue) : String := ((v.node.child? .valueText).map (·.text)).getD ""

/-- Whether the value begins with a quote. -/
def isQuoted (v : AttributeValue) : Bool :=
  match v.node.children with
  | c :: _ => c.kind == .quote
  | [] => false

end AttributeValue

/-- The value of an attribute without quotes, if it has one. -/
def View.value? {k : Kind} (v : View k) : Option String := v.valueElement?.map AttributeValue.text

namespace PropertyBinding

/-- What the binding writes to. -/
def bindingType (v : PropertyBinding) : Except MissingChild BindingType :=
  v.name.map fun s => (AttributeName.binding s).1

/-- The name bound, without the binding marks. -/
def propertyName (v : PropertyBinding) : Except MissingChild String :=
  v.name.map fun s => (AttributeName.binding s).2

end PropertyBinding

/-- The event bound, without the binding marks. -/
def EventBinding.eventName (v : EventBinding) : Except MissingChild String :=
  v.name.map AttributeName.event

namespace Element

/-- The opening tag. -/
def startTag (e : Element) : Except MissingChild Placed := e.node.required .startTag

/-- The first closing tag among the children. -/
def endTag? (e : Element) : Option Placed := e.node.child? .endTag

/-- The name in the opening tag. -/
def tagName (e : Element) : Except MissingChild String := do
  let tag ← e.startTag
  let name ← tag.required .tagName
  return name.text

/-- The attributes of the opening tag, in whatever form. -/
def attributes (e : Element) : Except MissingChild (List Placed) :=
  e.startTag.map fun tag => tag.children.filter (·.kind.isAttribute)

/-- The elements directly inside. -/
def childElements (e : Element) : List Placed := e.node.childrenOf .element

end Element

end SyntaxLint
