import SyntaxLint.Proofs.Template.Forest
import SyntaxLint.Proofs.Tree.Children

/-!
# Proofs — Templates — what the tags of nodes say

An element is told by its start tag: its name, whether it is void, whether it closes itself.  These
are read off the tree, and for a node that is made from a tag they are what the tag says.

* `Node.elementName?`, `Node.isVoid`, `Node.isSelfClosing`: what the start tag of an element says.
* `Node.endTagName?`: the name in an end tag.
-/

namespace SyntaxLint

namespace Node

/-- The name in a tag. -/
def tagName? (tag : Node) : Option String := (tag.body.child? .tagName).map (·.body.text)

/-- Whether a start tag ends in `/>`. -/
def closesItself (tag : Node) : Bool := (tag.body.child? .tagClose).any (·.body.text == "/>")

/-- The name in the start tag of an element. -/
def elementName? (n : Node) : Option String :=
  if n.kind = .element then (n.body.child? .startTag).bind tagName? else none

/-- The name in an end tag. -/
def endTagName? (n : Node) : Option String := if n.kind = .endTag then n.tagName? else none

/-- Whether the start tag of an element closes it. -/
def isSelfClosing (n : Node) : Bool := (n.body.child? .startTag).any closesItself

/-- Whether an element is void. -/
def isVoid (n : Node) : Bool :=
  n.elementName?.any fun name => Template.isNamed Template.voidElements name.toList

end Node

namespace Template

/-! ### Nodes made from tags -/

/-- The nodes of what stands in a start tag are white space, attributes and errors. -/
theorem kind_partsFragment (parts : List TagPart) (free : NodeId) :
    ∀ n ∈ (partsFragment parts).nodes free,
      n.kind = .whitespace ∨ n.kind.isAttribute = true ∨ n.kind = .error := by
  induction parts generalizing free with
  | nil => simp [partsFragment, Fragment.none]
  | cons p parts ih =>
    intro n hn
    rcases List.mem_append.1 hn with hn | hn
    · cases p with
      | blank s =>
        obtain rfl := List.mem_singleton.1 hn
        exact .inl rfl
      | attr a =>
        obtain rfl := List.mem_singleton.1 hn
        exact .inr (.inl (isAttribute_kindOf a.name))
      | stray c =>
        obtain rfl := List.mem_singleton.1 hn
        exact .inr (.inr rfl)
    · exact ih _ n hn

/-- The nodes below a start tag. -/
theorem StartTag.nodes_below (t : StartTag) (free : NodeId) : ∃ id,
    t.below.nodes free = ⟨free, .tagOpen, .tail "<"⟩ ::
      ⟨free + 1, .tagName, .tail (String.ofList t.name)⟩ ::
        ((partsFragment t.parts).nodes (free + 2) ++
          [⟨id, .tagClose, .tail (String.ofList t.closing)⟩]) :=
  ⟨_, rfl⟩

/-- The nodes below an end tag. -/
theorem EndTag.nodes_below (t : EndTag) (free : NodeId) : ∃ id,
    t.below.nodes free = ⟨free, .tagOpen, .tail "</"⟩ ::
      ⟨free + 1, .tagName, .tail (String.ofList t.name)⟩ ::
        ((leaf? .whitespace t.gap).nodes (free + 2) ++ [⟨id, .tagClose, .tail ">"⟩]) :=
  ⟨_, rfl⟩

@[simp] theorem StartTag.tagName?_root (t : StartTag) (free : NodeId) :
    (t.below.root .startTag free).tagName? = some (String.ofList t.name) := by
  obtain ⟨id, nodes⟩ := t.nodes_below free
  simp [Node.tagName?, Fragment.root, Content.child?_ofNodes, nodes]

@[simp] theorem EndTag.endTagName?_root (t : EndTag) (free : NodeId) :
    (t.below.root .endTag free).endTagName? = some (String.ofList t.name) := by
  obtain ⟨id, nodes⟩ := t.nodes_below free
  simp [Node.endTagName?, Node.tagName?, Fragment.root, Content.child?_ofNodes, nodes]

@[simp] theorem StartTag.closesItself_root (t : StartTag) (free : NodeId) :
    (t.below.root .startTag free).closesItself = t.selfClosing := by
  obtain ⟨id, nodes⟩ := t.nodes_below free
  have parts : ((partsFragment t.parts).nodes (free + 2)).find? (·.kind == .tagClose) = none := by
    refine List.find?_eq_none.2 fun n hn e => ?_
    have kind : n.kind = .tagClose := by simpa using e
    have other := kind_partsFragment t.parts (free + 2) n hn
    simp [kind, Kind.isAttribute] at other
  have text : (String.ofList t.closing == "/>") = t.selfClosing := by
    unfold StartTag.closing
    cases t.selfClosing <;> decide
  simp [Node.closesItself, Fragment.root, Content.child?_ofNodes, nodes, List.find?_append, parts,
    text]

/-! ### Nodes made from elements -/

/-- The node of an element, when the first identity is given. -/
def elementNode (tag : StartTag) (inside : Forest) (free : NodeId) : Node :=
  (tag.fragment.append inside.fragment).root .element free

variable (tag : StartTag) (inside : Forest) (free : NodeId)

/-- The children of an element: its start tag and what is inside. -/
theorem nodes_elementNode : (elementNode tag inside free).body.nodes =
    tag.below.root .startTag free :: inside.fragment.nodes (free + tag.fragment.size) := by
  simp [elementNode, Fragment.root, Fragment.append, StartTag.fragment, Fragment.node]

theorem child?_elementNode : (elementNode tag inside free).body.child? .startTag =
    some (tag.below.root .startTag free) := by
  simp [elementNode, Fragment.root, Fragment.append, StartTag.fragment, Fragment.node,
    Content.child?_ofNodes]

@[simp] theorem elementName?_elementNode :
    (elementNode tag inside free).elementName? = some (String.ofList tag.name) := by
  have kind : (elementNode tag inside free).kind = .element := rfl
  rw [Node.elementName?, if_pos kind, child?_elementNode]
  exact tag.tagName?_root free

@[simp] theorem isSelfClosing_elementNode :
    (elementNode tag inside free).isSelfClosing = tag.selfClosing := by
  simp [Node.isSelfClosing, child?_elementNode]

@[simp] theorem isVoid_elementNode :
    (elementNode tag inside free).isVoid = isNamed voidElements tag.name := by
  simp [Node.isVoid]

end Template

end SyntaxLint
