import SyntaxLint.Tree.Outline
import SyntaxLint.Json.Decode
import SyntaxLint.Json.Printer
import SyntaxLint.Json.Reader

/-!
# Trees — as JSON

Two ways to write a tree.  A document is the source with an outline: each node has its kind, its
range and, unless there are none, its children; it can be read again.  A listing has the text of
every token in place of children.

* `Document.ofText?`, `Document.toJson`: reading and writing documents.
* `Tree.listing`: the listing of a tree.
-/

namespace SyntaxLint

/-- A range as an array of two offsets. -/
def Span.toPair (s : Span) : Json := .array [.nat s.start, .nat s.stop]

namespace Outline

/-- The nodes of a run as JSON. -/
def toItems : Outline → List Json
  | .done => []
  | .node kind s children next =>
    (.object (("type", kind.toJson) :: ("range", s.toPair) ::
      match children.toItems with
      | [] => []
      | items => [("children", .array items)])) :: next.toItems

/-- A range of two offsets. -/
def pair? : Nat → Json → Option Span
  | 0, _ => none
  | _ + 1, .array [start, stop] => do return ⟨← start.asWord?, ← stop.asWord?⟩
  | _ + 1, _ => none

mutual

/-- A node of an outline. -/
def node? : Nat → Json → Option OutlineNode
  | 0, _ => none
  | budget + 1, v => do
    match (← v.fields? ["type", "range", "children"]).values with
    | [kind, range, children] =>
      let kind ← Json.required (Kind.ofJson? budget) kind
      let span ← Json.required (pair? budget) range
      let nodes ← Json.defaulted [] (nodes? budget) children
      return ⟨kind, span, ofNodes nodes⟩
    | _ => none

/-- The nodes of an array. -/
def nodes? : Nat → Json → Option (List OutlineNode)
  | budget + 1, .array items => items.mapM (node? budget)
  | _, _ => none

end

end Outline

/-- A node of an outline as JSON. -/
def OutlineNode.toJson (n : OutlineNode) : Json :=
  match (Outline.node n.kind n.span n.children .done).toItems with
  | v :: _ => v
  | [] => .null

namespace Document

/-- A document as JSON. -/
def toJson (d : Document) : Json := .object [("source", .string d.source), ("tree", d.root.toJson)]

/-- A document from JSON. -/
def ofJson? : Nat → Json → Option Document
  | 0, _ => none
  | budget + 1, v => do
    match (← v.fields? ["source", "tree"]).values with
    | [source, tree] =>
      return ⟨← Json.required Json.asString? source, ← Json.required (Outline.node? budget) tree⟩
    | _ => none

/-- A document from its text. -/
def ofText? (text : String) : Option Document := (Json.read text).bind (ofJson? Json.maxNesting)

/-- The text of a document. -/
def toText (d : Document) : String := d.toJson.pretty

end Document

namespace Content

/-- The nodes of a run that begins at `start`, with the text of every token. -/
def listing (start : Nat) : Content → List Json
  | .tail _ => []
  | .node gap _ kind body next =>
    let s : Span := ⟨start + gap.utf8ByteSize, start + gap.utf8ByteSize + body.width⟩
    let inner :=
      if kind.isToken && body.isLeaf then ("value", .string body.text)
      else ("children", .array (body.listing s.start))
    .object [("type", kind.toJson), ("range", s.toPair), inner] :: next.listing s.stop

end Content

/-- A node with the text of every token below it. -/
def Placed.listing (n : Placed) : Json :=
  match (Content.node "" n.id n.kind n.body (.tail "")).listing n.start with
  | v :: _ => v
  | [] => .null

/-- A tree with the text of every token. -/
def Tree.listing (t : Tree) : Json := t.top.listing

end SyntaxLint
