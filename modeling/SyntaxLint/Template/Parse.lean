import SyntaxLint.Template.Scan

/-!
# Templates — parsing

The items of a template are nested by their tags.  A start tag opens an element unless it is void
or closes itself; an end tag closes the innermost open element of its name, up to case, and every
element opened inside it; an end tag without such an element stands alone; what is open at the end
ends there.

* `nest`: the events of a sequence of items.
* `parse`: the tree of a template.
-/

namespace SyntaxLint.Template

open Text

/-- Why a template has no tree. -/
inductive ParseError where
  | invalidSource (what : Unterminated) (offset : Nat)
  | internal (cause : TreeError)
  deriving DecidableEq, Repr

def Unterminated.message : Unterminated → String
  | comment => "unterminated comment"
  | startTag => "unterminated start tag"
  | attributeValue => "unterminated attribute value"
  | endTag => "unterminated end tag"

def ParseError.message : ParseError → String
  | invalidSource what offset =>
    "Invalid source at byte " ++ toString offset ++ ": " ++ what.message
  | internal cause => "Internal parser error: " ++ cause.message

/-- The events of a sequence of items, where elements of the names `pending` are open, innermost
first.  All of them are finished at the end. -/
def nest (pending : List (List Char)) : List Item → List Event
  | [] => List.replicate pending.length .finish
  | .comment inner :: items => token .comment (Item.comment inner).print :: nest pending items
  | .text cs :: items => token .text cs :: nest pending items
  | .start tag :: items =>
    .start .element :: tag.events ++
      if tag.isClosed then .finish :: nest pending items else nest (tag.name :: pending) items
  | .close tag :: items =>
    match pending.findIdx? (sameFolded tag.name) with
    | some i =>
      List.replicate i .finish ++ tag.events ++ .finish :: nest (pending.drop (i + 1)) items
    | none => tag.events ++ nest pending items

/-- The events of a template. -/
def documentEvents (items : List Item) : List Event :=
  .start .document :: nest [] items ++ [.finish]

/-- Extensions of the files that hold templates. -/
def extensions : List String := ["html", "htm"]

/-- Whether a file extension is that of a template, up to case. -/
def hasExtension (extension : String) : Bool :=
  extensions.any fun e => sameFolded e.toList extension.toList

/-- The tree of a template. -/
def parse (identity : TreeId) (source : String) : Except ParseError Tree :=
  match scan source.toList with
  | .error fault =>
    .error (.invalidSource fault.what (source.utf8ByteSize - bytes fault.rest))
  | .ok items =>
    match Tree.ofEvents identity (documentEvents items) with
    | .ok tree => .ok tree
    | .error e => .error (.internal e)

end SyntaxLint.Template
