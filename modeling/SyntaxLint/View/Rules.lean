import SyntaxLint.View.Basic

/-!
# Views — rules

Enum declarations with their parts, qualified names and named consequences.
-/

namespace SyntaxLint

/-- A declaration `declare enum Name … end`. -/
abbrev EnumDeclaration := View .enumDeclaration

/-- A dotted name. -/
abbrev QualifiedName := View .qualifiedName

/-- A `do[…]` or `break[…]` in a condition. -/
abbrev NamedConsequence := View .lhsNamedConsequence

/-- The first identifier of an enumerative, a field or an annotation. -/
def View.identifier {k : Kind} (v : View k) : Except MissingChild String :=
  (v.node.required .identifier).map (·.text)

namespace QualifiedName

/-- The segments of the name. -/
def identifiers (q : QualifiedName) : List Placed := q.node.childrenOf .identifier

/-- The name as written. -/
def text (q : QualifiedName) : String := q.node.text

/-- The last segment, or the whole name if it has none. -/
def shortName (q : QualifiedName) : String := (q.identifiers.getLast?.map (·.text)).getD q.text

end QualifiedName

namespace EnumDeclaration

/-- The annotations of the declaration. -/
def annotations (d : EnumDeclaration) : List Placed := d.node.childrenOf .metadata

/-- The constants declared. -/
def enumeratives (d : EnumDeclaration) : List Placed := d.node.childrenOf .enumerative

/-- The fields declared. -/
def fields (d : EnumDeclaration) : List Placed := d.node.childrenOf .field

/-- The name declared, which the grammar promises. -/
def qualifiedName (d : EnumDeclaration) : Except MissingChild Placed :=
  d.node.required .qualifiedName

end EnumDeclaration

namespace NamedConsequence

/-- The consequences named. -/
def consequences (c : NamedConsequence) : List Placed := c.node.childrenOf .consequenceId

/-- The condition under which they are drawn, if there is one. -/
def guard? (c : NamedConsequence) : Option Placed := c.node.child? .expression

end NamedConsequence

/-- The constructor arguments of an enum constant. -/
def Enumerative.arguments (v : View .enumerative) : List Placed := v.node.childrenOf .expression

end SyntaxLint
