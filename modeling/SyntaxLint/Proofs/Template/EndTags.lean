import SyntaxLint.Proofs.Template.Grammar
import SyntaxLint.Proofs.Template.Pairing
import SyntaxLint.Proofs.Template.Tiling

/-!
# Proofs — Templates — end tags in trees

In the tree of a template an end tag is the last child of the nearest element around it that has its
name, or no element around it has its name.  An element that takes an end tag and has none ends with
an element around it that has one, where that begins, or with the template.

* `Node.isEndTagOf`, `Placed.ownEndTag?`: an end tag of the name of an element, and the one that
  closes it.
* `Tree.Paired`: a tree in which end tags and elements are paired so.
* `paired_parse`: the tree of a template is one.
-/

namespace SyntaxLint

open Template Text

/-- Whether a node is an end tag of the name of an element, up to case. -/
def Node.isEndTagOf (e p : Node) : Bool :=
  match e.endTagName?, p.elementName? with
  | some a, some b => sameFolded a.toList b.toList
  | _, _ => false

/-- The end tag that closes an element: its last child, if that is an end tag of its name. -/
def Placed.ownEndTag? (p : Placed) : Option Placed :=
  p.children.getLast?.filter (·.isEndTagOf p.toNode)

/-- A tree in which end tags close what they should, and elements end where they should. -/
structure Tree.Paired (t : Tree) : Prop where
  /-- end tags and elements have names -/
  named : ∀ n ∈ t.nodes, (n.kind = .endTag → n.endTagName?.isSome = true) ∧
    (n.kind = .element → n.elementName?.isSome = true)
  /-- an end tag closes its parent, the nearest element of its name, and no other does -/
  closes : ∀ e ∈ t.nodes, e.kind = .endTag →
    (∃ p ∈ t.ancestors e.id, e.isEndTagOf p.toNode = true) →
      ∃ p, t.parent? e = some p ∧
        (t.ancestors e.id).find? (fun p => e.isEndTagOf p.toNode) = some p ∧
        p.ownEndTag? = some e ∧ ∀ c ∈ p.children, c.isEndTagOf p.toNode = true → c = e
  /-- an end tag that no element around it has the name of closes nothing -/
  stray : ∀ e ∈ t.nodes, e.kind = .endTag →
    (∀ p ∈ t.ancestors e.id, e.isEndTagOf p.toNode = false) → ∀ p ∈ t.nodes, p.ownEndTag? ≠ some e
  /-- an element that is left open ends with one around it, or with the source -/
  unclosed : ∀ n ∈ t.nodes, n.kind = .element → n.isVoid = false → n.isSelfClosing = false →
    n.ownEndTag? = none → n.span.stop = t.source.utf8ByteSize ∨
      ∃ q ∈ t.ancestors n.id, ∃ e, q.ownEndTag? = some e ∧ n.span.stop = e.span.start

namespace Template

variable {t : Tree} {n p e : Placed} {path : List Placed} {pre post : List Placed}

/-! ### Names around a node -/

/-- The names of the elements among the given nodes. -/
def names (path : List Placed) : List (List Char) :=
  path.filterMap fun p => p.elementName?.map String.toList

theorem isEndTagOf_root (tag : EndTag) (free : NodeId) (p : Node) :
    (tag.below.root .endTag free).isEndTagOf p =
      (p.elementName?.map String.toList).any (sameFolded tag.name) := by
  rw [Node.isEndTagOf, EndTag.endTagName?_root]
  cases p.elementName? <;> simp

/-- An end tag has the name of an element among the given nodes if it has one of their names. -/
theorem any_names_iff (tag : EndTag) (free : NodeId) (path : List Placed) :
    (names path).any (sameFolded tag.name) = true ↔
      ∃ p ∈ path, (tag.below.root .endTag free).isEndTagOf p.toNode = true := by
  induction path with
  | nil => simp [names]
  | cons p path ih =>
    rw [names] at ih ⊢
    rw [List.filterMap_cons, List.exists_mem_cons_iff, isEndTagOf_root, ← ih]
    cases p.elementName? <;> simp

/-! ### Nodes with those above them -/

/-- A node with the nodes above it: the document, an element that is paired with what is inside it,
or a node inside a tag. -/
inductive Around : Placed → List Placed → Prop
  | inner {n : Placed} {path : List Placed} (apart : n.kind ≠ .document ∧ n.kind ≠ .element) :
      Around n path
  | document {n : Placed} {F : Forest} {free : NodeId} (kind : n.kind = .document)
      (nodes : n.body.nodes = F.fragment.nodes free) (paired : F.Paired []) : Around n []
  | element {n : Placed} {path : List Placed} {tag : StartTag} {inside : Forest} {free : NodeId}
      (made : n.toNode = elementNode tag inside free) (empty : tag.isClosed = true → inside = .done)
      (paired : inside.Paired (tag.name :: names path)) : Around n path

theorem names_cons_elementNode {tag : StartTag} {inside : Forest} {free : NodeId}
    (made : p.toNode = elementNode tag inside free) (path : List Placed) :
    names (p :: path) = tag.name :: names path := by
  have name : p.elementName? = some (String.ofList tag.name) := by
    rw [made, elementName?_elementNode]
  simp [names, name]

theorem names_cons_document (kind : p.kind = .document) (path : List Placed) :
    names (p :: path) = names path := by
  simp [names, Node.elementName?, kind]

/-- What stands between tags stands in the document or in an element. -/
theorem kind_of_isFlow (ht : t.Conforming) (hp : p ∈ t.nodes) (hn : n ∈ p.children)
    (flow : n.IsFlow) : p.kind = .document ∨ p.kind = .element := by
  by_contra apart
  rw [not_or] at apart
  rcases ht.node p hp with ⟨-, leaf⟩ | production
  · simp [leaf] at hn
  · exact (production.inner apart _ (List.mem_map_of_mem hn)).1 flow

/-- A child stands in its parent as in the forest of that, unless it is part of a tag. -/
theorem Around.child (h : Around p path) (ht : t.Conforming) (hp : p ∈ t.nodes)
    (split : p.children = pre ++ n :: post) : (¬ n.IsFlow ∧ n.kind ≠ .document) ∨
      (Stands (names (p :: path)) n.toNode (post.map (·.toNode)) ∧
        (names (p :: path)).head? = p.elementName?.map String.toList) := by
  have mem : n ∈ p.children := by simp [split]
  have nodes : p.body.nodes = pre.map (·.toNode) ++ n.toNode :: post.map (·.toNode) := by
    simp [← Placed.map_toNode_children, split]
  cases h with
  | inner apart =>
    rcases ht.node p hp with ⟨-, leaf⟩ | production
    · simp [leaf] at mem
    · exact .inl (production.inner apart _ (List.mem_map_of_mem mem))
  | document kind same paired =>
    have none : p.elementName? = .none := by simp [Node.elementName?, kind]
    rw [names_cons_document kind, none]
    exact .inr ⟨paired.stands (same.symm.trans nodes), rfl⟩
  | element made empty paired =>
    rw [names_cons_elementNode made, made, elementName?_elementNode]
    rw [made, nodes_elementNode, List.cons_eq_append_iff] at nodes
    rcases nodes with ⟨-, same⟩ | ⟨pre', -, rest⟩
    · refine .inl ?_
      rw [(List.cons.inj same).1]
      simp [Node.IsFlow, Fragment.root]
    · exact .inr ⟨paired.stands rest, by simp⟩

/-- Every node is around what is below it as it should be. -/
theorem Around.down (h : Around p path) (ht : t.Conforming) (hp : p ∈ t.nodes)
    (hn : n ∈ p.children) : Around n (p :: path) := by
  obtain ⟨pre, post, split⟩ := List.append_of_mem hn
  rcases h.child ht hp split with ⟨flow, document⟩ | ⟨stands, -⟩
  · refine .inner ⟨document, fun e => flow ?_⟩
    simp [Node.IsFlow, e]
  · obtain ⟨⟨id, kind, body⟩, start, parent⟩ := n
    cases stands with
    | leaf kind => exact .inner (by rcases kind with rfl | rfl <;> simp)
    | close => exact .inner ⟨by simp, by simp⟩
    | element empty paired => exact .element rfl empty paired

theorem Around.elementName? (h : Around n path) (kind : n.kind = .element) :
    n.elementName?.isSome = true := by
  cases h with
  | inner apart => exact absurd kind apart.2
  | document document => simp [document] at kind
  | element made => simp [made]

/-! ### End tags -/

/-- An end tag whose name is that of an element around it closes its parent. -/
theorem Around.endTag (h : Around p path) (ht : t.Conforming) (hp : p ∈ t.nodes)
    (split : p.children = pre ++ e :: post) (kind : e.kind = .endTag) :
    e.endTagName?.isSome = true ∧
      ((∃ q ∈ p :: path, e.isEndTagOf q.toNode = true) →
        e.isEndTagOf p.toNode = true ∧ post = []) := by
  rcases h.child ht hp split with ⟨flow, -⟩ | ⟨stands, head⟩
  · simp [Node.IsFlow, kind] at flow
  · generalize made : e.toNode = x at stands
    have kind : x.kind = .endTag := made ▸ kind
    cases stands with
    | leaf other => rcases other with other | other <;> simp [other] at kind
    | element => simp [elementNode, Fragment.root] at kind
    | @close tag free _ last =>
      refine ⟨by simp, fun around => ?_⟩
      obtain ⟨same, none⟩ := last ((any_names_iff tag free _).2 around)
      rw [head] at same
      exact ⟨by rwa [isEndTagOf_root], by simpa using none⟩

/-- It is its parent's own. -/
theorem ownEndTag?_of_last (split : p.children = pre ++ [e])
    (own : e.isEndTagOf p.toNode = true) : p.ownEndTag? = some e := by
  simp [Placed.ownEndTag?, split, own]

theorem mem_of_ownEndTag? (h : p.ownEndTag? = some e) :
    e ∈ p.children ∧ e.isEndTagOf p.toNode = true := by
  obtain ⟨last, own⟩ := Option.filter_eq_some_iff.1 h
  exact ⟨List.mem_of_getLast? last, own⟩

theorem kind_of_isEndTagOf {e p : Node} (h : e.isEndTagOf p = true) : e.kind = .endTag := by
  by_contra other
  simp [Node.isEndTagOf, Node.endTagName?, other] at h

/-! ### Elements that are left open -/

/-- An element that takes an end tag and has none. -/
structure IsLeftOpen (n : Placed) : Prop where
  kind : n.kind = .element
  void : n.isVoid = false
  selfClosing : n.isSelfClosing = false
  open' : n.ownEndTag? = none

/-- Where such an element ends: with the source, or where the end tag of one around it begins. -/
def EndsWith (t : Tree) (n : Placed) (path : List Placed) : Prop :=
  n.span.stop = t.source.utf8ByteSize ∨
    ∃ q ∈ path, ∃ e, q.ownEndTag? = some e ∧ n.span.stop = e.span.start

/-- What ends where its parent does ends with what that ends with. -/
theorem EndsWith.last (h : EndsWith t p path) (stop : n.span.stop = p.span.stop) :
    EndsWith t n (p :: path) := by
  rcases h with ends | ⟨q, hq, e, own, ends⟩
  · exact .inl (stop.trans ends)
  · exact .inr ⟨q, List.mem_cons_of_mem p hq, e, own, stop.trans ends⟩

theorem isClosed_iff_elementNode (tag : StartTag) (inside : Forest) (free : NodeId) :
    tag.isClosed = true ↔ (elementNode tag inside free).isSelfClosing = true ∨
      (elementNode tag inside free).isVoid = true := by
  rw [isSelfClosing_elementNode, isVoid_elementNode, StartTag.isClosed, Bool.or_eq_true]

/-- The tag of an element that is left open closes nothing, and what is inside has no end tag for
it. -/
theorem IsLeftOpen.not_closed (h : IsLeftOpen n) {tag : StartTag} {inside : Forest} {free : NodeId}
    (made : n.toNode = elementNode tag inside free) :
    ¬ (tag.isClosed = true ∨ inside.IsClosed tag.name) := by
  rintro (closed | closed)
  · rw [isClosed_iff_elementNode tag inside free, ← made, h.void, h.selfClosing] at closed
    simp at closed
  · obtain ⟨close, free', same, last⟩ := closed.getLast? (free + tag.fragment.size)
    have nodes : (n.children.map (·.toNode)).getLast? = some (close.below.root .endTag free') := by
      rw [Placed.map_toNode_children, made, nodes_elementNode, List.getLast?_cons, last]
      rfl
    rw [List.getLast?_map, Option.map_eq_some_iff] at nodes
    obtain ⟨e, last, same'⟩ := nodes
    have own : n.ownEndTag? = some e := by
      refine Option.filter_eq_some_iff.2 ⟨last, ?_⟩
      rw [same', isEndTagOf_root, made, elementName?_elementNode]
      simpa using same
    rw [h.open'] at own
    simp at own

/-- An element at the end of another that is left open: that one is left open too. -/
theorem IsLeftOpen.parent (h : IsLeftOpen n) (split : p.children = pre ++ [n]) {tag : StartTag}
    {inside : Forest} {free : NodeId} (made : p.toNode = elementNode tag inside free)
    (empty : tag.isClosed = true → inside = .done) : IsLeftOpen p := by
  have nodes : p.body.nodes = pre.map (·.toNode) ++ [n.toNode] := by
    simp [← Placed.map_toNode_children, split]
  have notClosed : ¬ tag.isClosed = true := by
    intro closed
    obtain rfl := empty closed
    rw [made, nodes_elementNode] at nodes
    have start : n.toNode = tag.below.root .startTag free := by
      have last := congrArg List.getLast? nodes
      simpa [Forest.fragment, Fragment.none] using last.symm
    have kind := h.kind
    rw [start] at kind
    simp [Fragment.root] at kind
  rw [isClosed_iff_elementNode tag inside free, ← made, not_or] at notClosed
  refine ⟨?_, by simpa using notClosed.2, by simpa using notClosed.1, ?_⟩
  · rw [made]
    rfl
  · rw [Option.eq_none_iff_forall_ne_some]
    intro e own
    obtain ⟨last, own⟩ := Option.filter_eq_some_iff.1 own
    obtain rfl : n = e := by simpa [split] using last
    have kind := kind_of_isEndTagOf own
    rw [h.kind] at kind
    simp at kind

/-- **Where an element that is left open ends**, given where its parent does. -/
theorem Around.endsWith (h : Around p path) (ht : t.Conforming) (packed : t.Packed)
    (hp : p ∈ t.nodes) (hn : n ∈ p.children) (left : IsLeftOpen n)
    (root : path = [] → p.span.stop = t.source.utf8ByteSize)
    (parent : IsLeftOpen p → EndsWith t p path) : EndsWith t n (p :: path) := by
  obtain ⟨pre, post, split⟩ := List.append_of_mem hn
  have flow : n.IsFlow := by simp [Node.IsFlow, left.kind]
  have frame := kind_of_isFlow ht hp hn flow
  have composite : p.kind.isToken = false := by rcases frame with e | e <;> rw [e] <;> rfl
  obtain ⟨stands, head⟩ := (h.child ht hp split).resolve_left fun inner => inner.1 flow
  have stop := Placed.stop_of_children (packed.node hp) composite split
  generalize made : n.toNode = x at stands
  have kind : x.kind = .element := made ▸ left.kind
  cases stands with
  | leaf other => rcases other with other | other <;> simp [other] at kind
  | close => simp [Fragment.root] at kind
  | element empty paired ends =>
    have notClosed := left.not_closed made
    rcases ends with closed | closed | none | ⟨close, free', one, same⟩
    · exact absurd (.inl closed) notClosed
    · exact absurd (.inr closed) notClosed
    · -- nothing follows: the element ends with its parent, which is left open as well
      obtain rfl : post = [] := by simpa using none
      have stop : n.span.stop = p.span.stop := stop
      cases h with
      | inner apart => exact (frame.elim apart.1 apart.2).elim
      | document => exact .inl (stop.trans (root rfl))
      | element made' empty' => exact (parent (left.parent split made' empty')).last stop
    · -- the end tag of the parent follows
      obtain ⟨e, rfl, same'⟩ := List.map_eq_singleton_iff.1 one
      have final : p.children = (pre ++ [n]) ++ [e] := by simp [split]
      have own : p.ownEndTag? = some e := by
        refine ownEndTag?_of_last final ?_
        rw [same', isEndTagOf_root, ← head]
        exact same
      exact .inr ⟨p, List.mem_cons_self, e, own, stop⟩

/-! ### Trees -/

/-- What is known of a node and the nodes above it, from the root down. -/
structure Settled (t : Tree) (n : Placed) (path : List Placed) : Prop where
  mem : n ∈ t.nodes
  around : Around n path
  root : path = [] → n.span.stop = t.source.utf8ByteSize
  ends : IsLeftOpen n → EndsWith t n path

/-- Every node of a tree is settled, if the root is paired with what is inside it. -/
theorem settled_nodes (ht : t.Conforming) (packed : t.Packed) (numbered : t.Numbered)
    (top : Around t.top []) : ∀ n ∈ t.nodes, Settled t n (t.ancestors n.id) := by
  refine numbered.ancestors_induction (P := Settled t) ?top ?down
  case top =>
    refine ⟨Tree.top_mem_nodes, top, fun _ => ?_, fun left => ?_⟩
    · simp [Placed.span, Tree.top, Tree.source_eq, Content.width_eq, packed.before, packed.after]
    · have kind := left.kind
      rw [ht.root] at kind
      simp at kind
  case down =>
    intro p path h n hn
    exact ⟨Tree.mem_nodes_of_mem_children h.mem hn, h.around.down ht h.mem hn, by simp,
      fun left => h.around.endsWith ht packed h.mem hn left h.root h.ends⟩

/-- The parent of an end tag, with what is known of it. -/
theorem exists_parent (ht : t.Conforming) (numbered : t.Numbered) (he : e ∈ t.nodes)
    (kind : e.kind = .endTag) : ∃ p ∈ t.nodes, e ∈ p.children ∧ t.parent? e = some p ∧
      t.ancestors e.id = p :: t.ancestors p.id := by
  rcases Tree.eq_top_or_mem_children he with rfl | ⟨p, hp, mem, parent⟩
  · rw [ht.root] at kind
    simp at kind
  · refine ⟨p, hp, mem, ?_, numbered.ancestors_of_mem_children hp mem⟩
    rw [Tree.parent?, parent]
    exact numbered.node?_id hp

theorem paired_of_settled (ht : t.Conforming) (numbered : t.Numbered)
    (settled : ∀ n ∈ t.nodes, Settled t n (t.ancestors n.id)) : t.Paired := by
  constructor
  case named =>
    intro n hn
    constructor
    · intro kind
      obtain ⟨p, hp, mem, -, -⟩ := exists_parent ht numbered hn kind
      obtain ⟨pre, post, split⟩ := List.append_of_mem mem
      exact ((settled p hp).around.endTag ht hp split kind).1
    · intro kind
      exact (settled n hn).around.elementName? kind
  case closes =>
    intro e he kind among
    obtain ⟨p, hp, mem, parent, above⟩ := exists_parent ht numbered he kind
    have last : ∀ c ∈ p.children, c.kind = .endTag →
        (∃ q ∈ p :: t.ancestors p.id, c.isEndTagOf q.toNode = true) →
          c.isEndTagOf p.toNode = true ∧ p.children.getLast? = some c := by
      intro c hc kind among
      obtain ⟨pre, post, split⟩ := List.append_of_mem hc
      obtain ⟨own, rfl⟩ := ((settled p hp).around.endTag ht hp split kind).2 among
      exact ⟨own, by simp [split]⟩
    rw [above] at among ⊢
    obtain ⟨own, final⟩ := last e mem kind among
    refine ⟨p, parent, by simp [own], ?_, fun c hc same => ?_⟩
    · exact Option.filter_eq_some_iff.2 ⟨final, own⟩
    · obtain ⟨-, final'⟩ := last c hc (kind_of_isEndTagOf same) ⟨p, List.mem_cons_self, same⟩
      exact Option.some.inj (final'.symm.trans final)
  case stray =>
    intro e he kind none p hp own
    obtain ⟨mem, same⟩ := mem_of_ownEndTag? own
    have above := numbered.ancestors_of_mem_children hp mem
    have other := none p (by simp [above])
    simp [same] at other
  case unclosed =>
    intro n hn kind void selfClosing own
    exact (settled n hn).ends ⟨kind, void, selfClosing, own⟩

theorem settled_parse {identity : TreeId} {source : String}
    (short : source.utf8ByteSize < 2 ^ 32) (h : parse identity source = .ok t) :
    t.Conforming ∧ ∀ n ∈ t.nodes, Settled t n (t.ancestors n.id) := by
  have numbered := numbered_parse h
  obtain ⟨items, read, rfl⟩ := (parse_eq_ok_iff_grow short).1 h
  have proper := proper_plant (asRead_of_scan read)
  have ht := proper.conforming identity
  have top : Around ((plant items).tree identity).top [] :=
    .document rfl (Content.nodes_ofNodes _) (paired_plant items)
  exact ⟨ht, settled_nodes ht (proper.packed identity) numbered top⟩

/-- **End tags and elements are paired in the tree of a template** that offsets reach. -/
theorem paired_parse {identity : TreeId} {source : String}
    (short : source.utf8ByteSize < 2 ^ 32) (h : parse identity source = .ok t) : t.Paired := by
  obtain ⟨ht, settled⟩ := settled_parse short h
  exact paired_of_settled ht (numbered_parse h) settled

/-- A template in which an end tag closes two elements, one stands alone and one element is left
open. -/
theorem paired_parse_of_stray : ∃ t : Tree,
    parse 0 "<a><B>x</A></b><p><br>" = .ok t ∧ t.Paired := by
  have short : "<a><B>x</A></b><p><br>".utf8ByteSize < 2 ^ 32 := by decide
  have parsed : (parse 0 "<a><B>x</A></b><p><br>").isOk = true := by decide +kernel
  obtain ⟨t, h⟩ := exists_parse_of_isOk parsed
  exact ⟨t, h, paired_parse short h⟩

end Template

end SyntaxLint
