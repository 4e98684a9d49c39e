/-!
# Kinds

The productions of both grammars, with what is known of a node from its kind alone: the grammar it
belongs to, whether it is a token, whether it is one of the three forms of attribute.
-/

namespace SyntaxLint

/-- The grammar a kind belongs to; `common` kinds occur in both. -/
inductive Language where
  | template
  | rules
  | common
  deriving DecidableEq, Repr, Inhabited

/-- The name a language goes by in output. -/
def Language.name : Language → String
  | .template => "template"
  | .rules => "rules"
  | .common => "common"

/-- The productions and tokens of the template grammar, of the rules grammar, and of both. -/
inductive Kind where
  -- template productions
  | document | element | startTag | endTag | plainAttribute | propertyBinding | eventBinding
  | attributeValue
  -- template tokens
  | tagOpen | tagClose | tagName | attributeName | equals | quote | valueText | text | comment
  -- rules productions
  | compilationUnit | enumDeclaration | qualifiedName | metadata | enumerative | field
  | lhsNamedConsequence | consequenceId | expression
  -- rules tokens
  | identifier | keyword | punctuation
  -- tokens of both
  | whitespace | error
  deriving DecidableEq, Repr, Inhabited

namespace Kind

/-- Every kind. -/
def all : List Kind :=
  [document, element, startTag, endTag, plainAttribute, propertyBinding, eventBinding,
    attributeValue, tagOpen, tagClose, tagName, attributeName, equals, quote, valueText, text,
    comment,
    compilationUnit, enumDeclaration, qualifiedName, metadata, enumerative, field,
    lhsNamedConsequence, consequenceId, expression, identifier, keyword, punctuation, whitespace,
    error]

/-- The name of a kind in stored trees and in messages. -/
def name : Kind → String
  | document => "Document"
  | element => "Element"
  | startTag => "StartTag"
  | endTag => "EndTag"
  | plainAttribute => "Attribute"
  | propertyBinding => "PropertyBinding"
  | eventBinding => "EventBinding"
  | attributeValue => "AttributeValue"
  | tagOpen => "TagOpen"
  | tagClose => "TagClose"
  | tagName => "TagName"
  | attributeName => "AttributeName"
  | equals => "Equals"
  | quote => "Quote"
  | valueText => "ValueText"
  | text => "Text"
  | comment => "Comment"
  | compilationUnit => "CompilationUnit"
  | enumDeclaration => "EnumDeclaration"
  | qualifiedName => "QualifiedName"
  | metadata => "Annotation"
  | enumerative => "Enumerative"
  | field => "Field"
  | lhsNamedConsequence => "LhsNamedConsequence"
  | consequenceId => "ConsequenceId"
  | expression => "Expression"
  | identifier => "Identifier"
  | keyword => "Keyword"
  | punctuation => "Punctuation"
  | whitespace => "Whitespace"
  | error => "Error"

/-- The kind of a given name. -/
def ofName? (s : String) : Option Kind := all.find? (·.name == s)

/-- The grammar a kind belongs to. -/
def language : Kind → Language
  | document | element | startTag | endTag | plainAttribute | propertyBinding | eventBinding
  | attributeValue | tagOpen | tagClose | tagName | attributeName | equals | quote | valueText
  | text | comment => .template
  | compilationUnit | enumDeclaration | qualifiedName | metadata | enumerative | field
  | lhsNamedConsequence | consequenceId | expression | identifier | keyword | punctuation => .rules
  | whitespace | error => .common

/-- Whether a node of the kind is a single token. -/
def isToken : Kind → Bool
  | tagOpen | tagClose | tagName | attributeName | equals | quote | valueText | text | comment
  | identifier | keyword | punctuation | whitespace | error => true
  | _ => false

/-- Whether a node of the kind is an attribute in one of its three forms. -/
def isAttribute : Kind → Bool
  | plainAttribute | propertyBinding | eventBinding => true
  | _ => false

/-- Whether a node of the kind carries no meaning. -/
def isTrivia : Kind → Bool
  | whitespace => true
  | _ => false

theorem mem_all (k : Kind) : k ∈ all := by cases k <;> decide

end Kind

end SyntaxLint
