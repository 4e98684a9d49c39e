import SyntaxLint.Tree.Event

/-!
# Rules — sketches

A rules file in its plainest form: enum declarations with a blank line between them, each constant
on a line of its own.  A sketch can leave out the name of an enum, which no text does.
-/

namespace SyntaxLint.Rules.Sketch

/-- An enum declaration, with or without a name. -/
structure Enum where
  name : Option String
  constants : List String
  deriving DecidableEq, Repr, Inhabited

/-- The nodes of a dotted name. -/
def nameEvents (name : String) : List Event :=
  [.token .whitespace " ", .start .qualifiedName] ++
    List.intercalate [.token .punctuation "."]
      ((name.splitOn ".").map fun s => [.token .identifier s]) ++ [.finish]

def constantEvents (constant : String) : List Event :=
  [.token .whitespace "\n    ", .start .enumerative, .token .identifier constant, .finish]

def Enum.events (e : Enum) : List Event :=
  [.start .enumDeclaration, .token .keyword "declare", .token .whitespace " ",
    .token .keyword "enum"] ++
    (e.name.map nameEvents).getD [] ++ e.constants.flatMap constantEvents ++
    [.token .whitespace "\n", .token .keyword "end", .finish]

/-- The nodes of a rules file. -/
def events (declarations : List Enum) : List Event :=
  .start .compilationUnit ::
    List.intercalate [.token .whitespace "\n\n"] (declarations.map Enum.events) ++ [.finish]

/-- The tree of a rules file. -/
def tree (identity : TreeId) (declarations : List Enum) : Except TreeError Tree :=
  Tree.ofEvents identity (events declarations)

end SyntaxLint.Rules.Sketch
