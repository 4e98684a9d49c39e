import SyntaxLint.Files.Disk
import SyntaxLint.Template.Parse
import SyntaxLint.Tree.Encoding

/-!
# Files — sources

A source is a file that holds a tree, as a template or as a stored document; its name tells which.
A source that is written again keeps its form.

* `Source.load`: the tree in a file, or why there is none.
* `Source.text`: what a file holds after its tree was changed.
-/

namespace SyntaxLint

/-- How a file holds a tree. -/
inductive Form where
  | template
  | document
  deriving DecidableEq, Repr, Inhabited

namespace Form

/-- How the names of files with stored documents end. -/
def documentEnding : String := ".tree.json"

/-- What comes after the last dot of a name, unless that dot is its first character. -/
def extension? (name : String) : Option String :=
  let cs := name.toList
  match cs.reverse.span (· != '.') with
  | (_, []) => none
  | (_, [_]) => none
  | (ending, _) => some (String.ofList ending.reverse)

/-- The form that files of a name have. -/
def ofName? (name : String) : Option Form :=
  if documentEnding.toList.isSuffixOf name.toList then some .document
  else if (extension? name).any Template.hasExtension then some .template
  else none

/-- The form of the file that a path leads to. -/
def ofPath? (p : Path) : Option Form := p.fileName?.bind ofName?

end Form

/-- A file with the tree it holds. -/
structure Source where
  path : Path
  form : Form
  tree : Tree
  deriving DecidableEq, Repr

/-- Why a file gives no tree. -/
inductive LoadError where
  | unsupported (p : Path)
  | missing
  | garbled
  | parse (e : Template.ParseError)
  | notDocument
  | tree (e : TreeError)
  deriving DecidableEq, Repr

def LoadError.message : LoadError → String
  | unsupported p => "Unsupported file type: " ++ p.text
  | missing => "I/O error: No such file or directory (os error 2)"
  | garbled => "I/O error: stream did not contain valid UTF-8"
  | parse e => e.message
  | notDocument => "Invalid tree JSON"
  | tree e => "Invalid tree: " ++ e.message

namespace Form

/-- The tree that a text holds. -/
def tree (identity : TreeId) (text : String) : Form → Except LoadError Tree
  | template =>
    match Template.parse identity text with
    | .ok t => .ok t
    | .error e => .error (.parse e)
  | document =>
    match Document.ofText? text with
    | none => .error .notDocument
    | some d =>
      match d.tree identity with
      | .ok t => .ok t
      | .error e => .error (.tree e)

/-- The text that holds a tree. -/
def text (t : Tree) : Form → String
  | template => t.source
  | document => t.document.toText ++ "\n"

end Form

namespace Source

/-- The tree in the file that a path leads to. -/
def load (d : Disk) (identity : TreeId) (path : Path) : Except LoadError Source :=
  match Form.ofPath? path with
  | none => .error (.unsupported path)
  | some form =>
    match d.read? path with
    | none => .error .missing
    | some .garbled => .error .garbled
    | some (.text s) => (⟨path, form, ·⟩) <$> form.tree identity s

/-- What the file holds when it holds the tree. -/
def text (s : Source) : String := s.form.text s.tree

end Source

end SyntaxLint
