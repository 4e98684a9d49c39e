import SyntaxLint.Tree.Event
import SyntaxLint.Template.Name

/-!
# Templates — items

A template is a sequence of items: comments, texts, start tags and end tags.  An item knows its
parts; written out one after the other, the items of a template are the template.

* `Item.print`: the text of an item.
* `Item.events`: the nodes of an item.
-/

namespace SyntaxLint.Template

/-- The value of an attribute. -/
inductive Value where
  | quoted (quote : Char) (text : List Char)
  | bare (text : List Char)
  deriving DecidableEq, Repr, Inhabited

/-- What follows the name of an attribute: nothing, or `=`, or `=` and a value.  The texts are the
blanks before `=` and before the value. -/
inductive Assignment where
  | none
  | equals (gap : List Char)
  | value (gap : List Char) (inner : List Char) (value : Value)
  deriving DecidableEq, Repr, Inhabited

/-- An attribute as written. -/
structure Attribute where
  name : List Char
  assignment : Assignment
  deriving DecidableEq, Repr, Inhabited

/-- What stands in a start tag after its name. -/
inductive TagPart where
  | blank (text : List Char)
  | attr (a : Attribute)
  | stray (c : Char)
  deriving DecidableEq, Repr, Inhabited

/-- A start tag as written. -/
structure StartTag where
  name : List Char
  parts : List TagPart
  selfClosing : Bool
  deriving DecidableEq, Repr, Inhabited

/-- An end tag as written: its name and the blanks before `>`. -/
structure EndTag where
  name : List Char
  gap : List Char
  deriving DecidableEq, Repr, Inhabited

/-- An item of a template. -/
inductive Item where
  | comment (inner : List Char)
  | text (chars : List Char)
  | start (tag : StartTag)
  | close (tag : EndTag)
  deriving DecidableEq, Repr, Inhabited

/-! ### What an item is written as -/

def Value.print : Value → List Char
  | .quoted q s => q :: s ++ [q]
  | .bare s => s

def Assignment.print : Assignment → List Char
  | .none => []
  | .equals gap => gap ++ ['=']
  | .value gap inner v => gap ++ '=' :: inner ++ v.print

def Attribute.print (a : Attribute) : List Char := a.name ++ a.assignment.print

def TagPart.print : TagPart → List Char
  | .blank s => s
  | .attr a => a.print
  | .stray c => [c]

/-- The characters that close a start tag. -/
def StartTag.closing (t : StartTag) : List Char := if t.selfClosing then ['/', '>'] else ['>']

def StartTag.print (t : StartTag) : List Char :=
  '<' :: t.name ++ t.parts.flatMap TagPart.print ++ t.closing

def EndTag.print (t : EndTag) : List Char := '<' :: '/' :: t.name ++ t.gap ++ ['>']

/-- The text of an item. -/
def Item.print : Item → List Char
  | .comment inner => ['<', '!', '-', '-'] ++ inner ++ ['-', '-', '>']
  | .text s => s
  | .start t => t.print
  | .close t => t.print

/-! ### What nodes an item makes -/

/-- A token of the given characters. -/
def token (kind : Kind) (cs : List Char) : Event := .token kind (String.ofList cs)

/-- A token of the given characters, unless there are none. -/
def token? (kind : Kind) (cs : List Char) : List Event :=
  if cs.isEmpty then [] else [token kind cs]

def Value.events : Value → List Event
  | .quoted q s => token .quote [q] :: token? .valueText s ++ [token .quote [q]]
  | .bare s => [token .valueText s]

def Assignment.events : Assignment → List Event
  | .none => []
  | .equals gap => token? .whitespace gap ++ [token .equals ['=']]
  | .value gap inner v =>
    token? .whitespace gap ++ token .equals ['='] :: token? .whitespace inner ++
      Event.start .attributeValue :: v.events ++ [.finish]

def Attribute.events (a : Attribute) : List Event :=
  .start (AttributeName.kindOf a.name) :: token .attributeName a.name :: a.assignment.events ++
    [.finish]

def TagPart.events : TagPart → List Event
  | .blank s => [token .whitespace s]
  | .attr a => a.events
  | .stray c => [token .error [c]]

def StartTag.events (t : StartTag) : List Event :=
  .start .startTag :: token .tagOpen ['<'] :: token .tagName t.name ::
    t.parts.flatMap TagPart.events ++ [token .tagClose t.closing, .finish]

def EndTag.events (t : EndTag) : List Event :=
  .start .endTag :: token .tagOpen ['<', '/'] :: token .tagName t.name ::
    token? .whitespace t.gap ++ [token .tagClose ['>'], .finish]

end SyntaxLint.Template
