import SyntaxLint.Proofs.Template.EndTags

/-!
# Proofs — Templates — raw text

What is inside a `script`, `style`, `textarea` or `title` element is text up to the first end tag
whose name begins with that of the element, and there it stops being raw: an end tag of a longer
name does not close the element, and what follows is markup again.  Where no end tag of a longer
name stands inside, the content is raw text up to the end tag of the element.  All this is about
sources whose end offsets reach.

* `Placed.RawText`, `Placed.IsRaw`: a raw text in an element, and an element whose content is raw
  text up to its end tag.
* `raw_parse`: the raw text of a template.
* `not_isRaw_of_longer_name`: an element whose content is not.
-/

namespace SyntaxLint

open Template Text

/-- Whether a node is an end tag whose name begins with that of an element, up to case. -/
def Node.beginsEndTagOf (e p : Node) : Bool :=
  match e.endTagName?, p.elementName? with
  | some a, some b => (lower b.toList).isPrefixOf (lower a.toList)
  | _, _ => false

/-- An element whose content is raw text by its name and its start tag. -/
structure Node.HasRawText (n : Node) : Prop where
  name : ∃ name, n.elementName? = some name ∧ isNamed rawTextElements name.toList = true
  selfClosing : n.isSelfClosing = false

/-- A text in an element, in which no end tag begins whose name begins with that of the element. -/
structure Placed.RawText (n x : Placed) : Prop where
  kind : x.kind = .text
  stays : ∀ name, n.elementName? = some name → StaysRaw name.toList x.text.toList

/-- The children of an element are its start tag, at most one text in which it is not closed, and
then nothing or an end tag and what follows it, of which `closes` holds. -/
def Placed.RawUpTo (closes : Placed → List Placed → Prop) (n : Placed) : Prop :=
  ∃ start text rest, n.children = start :: (text ++ rest) ∧ start.kind = .startTag ∧
    (text = [] ∨ ∃ x, text = [x] ∧ n.RawText x) ∧
    (rest = [] ∨ ∃ e more, rest = e :: more ∧ e.kind = .endTag ∧ closes e more)

/-- The content of an element is raw text up to its end tag, after which nothing comes. -/
def Placed.IsRaw (n : Placed) : Prop :=
  n.RawUpTo fun e more => e.isEndTagOf n.toNode = true ∧ more = []

/-- The nodes in an element beside its start tag, at any depth. -/
def Placed.inside (n : Placed) : List Placed := n.children.tail.flatMap Placed.preorder

namespace Template

variable {t : Tree} {n e : Placed} {path : List Placed} {F : Forest} {name : List Char}

/-! ### The children of a raw element -/

/-- What ends raw text, as nodes. -/
theorem Forest.EndsRaw.nodes (h : F.EndsRaw name) (free : NodeId) : F.fragment.nodes free = [] ∨
    ∃ (tag : EndTag) (free' : NodeId) (more : List Node),
      F.fragment.nodes free = tag.below.root .endTag free' :: more ∧
        lower name <+: lower tag.name := by
  cases F with
  | done => exact .inl rfl
  | close tag next => exact .inr ⟨tag, free, _, rfl, h⟩
  | comment | text | element => exact h.elim

/-- Raw text and what ends it, as nodes. -/
theorem Forest.StartsRaw.nodes (h : F.StartsRaw name) (free : NodeId) :
    ∃ text rest, F.fragment.nodes free = text ++ rest ∧
      (text = [] ∨ ∃ cs free', text = [⟨free', .text, .tail (String.ofList cs)⟩] ∧
        StaysRaw name cs) ∧
      (rest = [] ∨ ∃ (tag : EndTag) (free' : NodeId) (more : List Node),
        rest = tag.below.root .endTag free' :: more ∧ lower name <+: lower tag.name) := by
  rcases Forest.startsRaw_iff.1 h with ends | ⟨cs, next, rfl, stays, ends⟩
  · exact ⟨[], _, rfl, .inl rfl, ends.nodes free⟩
  · exact ⟨[_], _, rfl, .inr ⟨cs, free, rfl, stays⟩, ends.nodes _⟩

/-- No element of raw text is void. -/
theorem isNamed_voidElements (h : isNamed rawTextElements name = true) :
    isNamed voidElements name = false := by
  have apart : ∀ n ∈ rawTextElements, (voidElements.any fun m => m.toList == n.toList) = false := by
    decide
  obtain ⟨n, hn, same⟩ := List.any_eq_true.1 h
  rw [isNamed, ← eq_of_beq same]
  exact apart n hn

theorem beginsEndTagOf_root (close : EndTag) (free : NodeId) (tag : StartTag) (inside : Forest)
    (free' : NodeId) (h : lower tag.name <+: lower close.name) :
    (close.below.root .endTag free).beginsEndTagOf (elementNode tag inside free') = true := by
  simpa [Node.beginsEndTagOf] using h

/-- Raw text follows the start tag of such an element. -/
theorem hasRawText_of_elementNode {tag : StartTag} {inside : Forest} {free : NodeId}
    (h : (elementNode tag inside free).HasRawText) : tag.hasRawText = true := by
  obtain ⟨⟨name, named, raw⟩, selfClosing⟩ := h
  obtain rfl : String.ofList tag.name = name := by simpa using named
  rw [String.toList_ofList] at raw
  rw [isSelfClosing_elementNode] at selfClosing
  simp [StartTag.hasRawText, StartTag.isClosed, selfClosing, raw, isNamed_voidElements raw]

/-- The node of an element is made from a start tag and what is inside. -/
theorem Origin.exists_element {x : Node} (h : Origin x) (kind : x.kind = .element) :
    ∃ tag inside free, x = elementNode tag inside free ∧
      (Forest.element tag inside .done).Proper := by
  cases h with
  | token token =>
    obtain rfl := kind
    simp [Kind.isToken] at token
  | made made free =>
    cases made with
    | @element tag inside proper => exact ⟨tag, inside, free, rfl, proper⟩
    | @attr a =>
      have attr := isAttribute_kindOf a.name
      rw [show AttributeName.kindOf a.name = .element from kind] at attr
      simp [Kind.isAttribute] at attr
    | startTag | endTag | value => simp [Fragment.root] at kind

/-- **The children of an element of raw text**, as they are read. -/
theorem rawUpTo_of_settled (ht : t.Conforming) (settled : Settled t n path)
    (origin : Origin n.toNode) (raw : n.HasRawText) : n.RawUpTo fun e more =>
      e.beginsEndTagOf n.toNode = true ∧ (e.isEndTagOf n.toNode = true → more = []) := by
  have kind : n.kind = .element := by
    obtain ⟨name, named, -⟩ := raw.name
    by_contra other
    simp [Node.elementName?, other] at named
  obtain ⟨tag, inside, free, made, proper⟩ := origin.exists_element kind
  obtain ⟨text, rest, nodes, one, ends⟩ :=
    (proper.1.2.2.1 (hasRawText_of_elementNode (made ▸ raw))).nodes (free + tag.fragment.size)
  have children : n.children.map (·.toNode) = tag.below.root .startTag free :: (text ++ rest) := by
    rw [Placed.map_toNode_children, made, nodes_elementNode, nodes]
  obtain ⟨start, below, split, begins, both⟩ := List.map_eq_cons_iff.1 children
  obtain ⟨text', rest', rfl, rfl, rfl⟩ := List.map_eq_append_iff.1 both
  refine ⟨start, text', rest', split, by rw [begins]; rfl, ?_, ?_⟩
  · rcases one with none | ⟨cs, free', one, stays⟩
    · exact .inl (by simpa using none)
    · obtain ⟨x, rfl, same⟩ := List.map_eq_singleton_iff.1 one
      refine .inr ⟨x, rfl, by rw [same], fun name named => ?_⟩
      obtain rfl : String.ofList tag.name = name := by simpa [made] using named
      rw [String.toList_ofList, Placed.text, same, Content.text_tail, String.toList_ofList]
      exact stays
  · rcases ends with none | ⟨close, free', more, ends, longer⟩
    · exact .inl (by simpa using none)
    · obtain ⟨e, more', rfl, same, -⟩ := List.map_eq_cons_iff.1 ends
      have kind : e.kind = .endTag := by rw [same]; rfl
      have last : n.children = (start :: text') ++ e :: more' := split
      refine .inr ⟨e, more', rfl, kind, ?_, fun own => ?_⟩
      · rw [same, made]
        exact beginsEndTagOf_root close free' tag inside free longer
      · exact ((settled.around.endTag ht settled.mem last kind).2 ⟨n, List.mem_cons_self, own⟩).2

/-- Its content is raw text up to its end tag if it has no end tag of another name. -/
theorem isRaw_iff (h : n.RawUpTo fun e more =>
    e.beginsEndTagOf n.toNode = true ∧ (e.isEndTagOf n.toNode = true → more = [])) :
    n.IsRaw ↔ ∀ e ∈ n.children, e.kind = .endTag → e.isEndTagOf n.toNode = true := by
  constructor
  case mp =>
    rintro ⟨start, text, rest, split, begins, one, ends⟩ e he kind
    rw [split, List.mem_cons, List.mem_append] at he
    rcases he with rfl | he | he
    · simp [begins] at kind
    · rcases one with rfl | ⟨x, rfl, raw⟩
      · simp at he
      · obtain rfl := List.mem_singleton.1 he
        simp [raw.kind] at kind
    · rcases ends with rfl | ⟨e', more, rfl, -, own, rfl⟩
      · simp at he
      · exact List.mem_singleton.1 he ▸ own
  case mpr =>
    intro all
    obtain ⟨start, text, rest, split, begins, one, ends⟩ := h
    refine ⟨start, text, rest, split, begins, one, ends.imp_right ?_⟩
    rintro ⟨e, more, rfl, kind, -, last⟩
    have own := all e (by simp [split]) kind
    exact ⟨e, more, rfl, kind, own, last own⟩

/-! ### What is inside -/

theorem mem_nodes_of_mem_inside {m : Placed} (hn : n ∈ t.nodes) (hm : m ∈ n.inside) :
    m ∈ t.nodes := by
  obtain ⟨c, hc, hm⟩ := List.mem_flatMap.1 hm
  have child := Tree.mem_nodes_of_mem_children hn (List.mem_of_mem_tail hc)
  rcases List.mem_cons.1 hm with rfl | hm
  · exact child
  · exact Content.mem_preorder_of_mem_descendants child hm

/-- The kinds of texts, of end tags and of what is in these. -/
def rawKinds : List Kind := [.text, .endTag, .tagOpen, .tagName, .whitespace, .tagClose]

theorem descendants_of_isToken (packed : t.Packed) (hn : n ∈ t.nodes)
    (token : n.kind.isToken = true) : n.descendants = [] :=
  Content.preorder_of_isLeaf ((packed.node hn).token token).1 _ _

/-- The parts of an end tag have none below them. -/
theorem kind_of_mem_endTag (ht : t.Conforming) (packed : t.Packed) (he : e ∈ t.nodes)
    (kind : e.kind = .endTag) : ∀ m ∈ e.preorder, m.kind ∈ rawKinds := by
  have production := ht.production he (by rw [kind]; rfl)
  rw [kind] at production
  have parts : ∀ p ∈ e.children, p ∈ t.nodes ∧
      p.kind ∈ [Kind.tagOpen, .tagName, .whitespace, .tagClose] := fun p hp =>
    ⟨Tree.mem_nodes_of_mem_children he hp,
      production.kind_of_endTag _ (List.mem_map_of_mem hp)⟩
  have down : ∀ p : Placed, (p ∈ t.nodes ∧
      p.kind ∈ [Kind.tagOpen, .tagName, .whitespace, .tagClose]) → ∀ q ∈ p.children,
        q ∈ t.nodes ∧ q.kind ∈ [Kind.tagOpen, .tagName, .whitespace, .tagClose] := by
    rintro p ⟨hp, kind⟩ q hq
    have token : p.kind.isToken = true := by
      simp only [List.mem_cons, List.not_mem_nil, or_false] at kind
      rcases kind with kind | kind | kind | kind <;> rw [kind] <;> rfl
    have below : q ∈ p.descendants := Content.mem_preorder_of_mem_siblings hq
    simp [descendants_of_isToken packed hp token] at below
  intro m hm
  rcases List.mem_cons.1 hm with rfl | hm
  · simp [kind, rawKinds]
  · have inner := (Content.preorder_induction down e.body parts m hm).2
    simp only [List.mem_cons, List.not_mem_nil, or_false] at inner
    rcases inner with inner | inner | inner | inner <;> simp [inner, rawKinds]

/-- A text and an end tag, with the parts of that. -/
theorem kind_of_mem_inside (ht : t.Conforming) (packed : t.Packed) (hn : n ∈ t.nodes)
    (raw : n.IsRaw) : ∀ m ∈ n.inside, m.kind ∈ rawKinds := by
  obtain ⟨start, text, rest, split, -, one, ends⟩ := raw
  intro m hm
  obtain ⟨c, hc, hm⟩ := List.mem_flatMap.1 hm
  have child := Tree.mem_nodes_of_mem_children hn (List.mem_of_mem_tail hc)
  rw [split, List.tail_cons, List.mem_append] at hc
  rcases hc with hc | hc
  · rcases one with rfl | ⟨x, rfl, raw⟩
    · simp at hc
    · obtain rfl := List.mem_singleton.1 hc
      have leaf := descendants_of_isToken packed child (by rw [raw.kind]; rfl)
      rw [Placed.preorder, leaf, List.mem_singleton] at hm
      simp [hm, raw.kind, rawKinds]
  · rcases ends with rfl | ⟨e, more, rfl, kind, -, rfl⟩
    · simp at hc
    · obtain rfl := List.mem_singleton.1 hc
      exact kind_of_mem_endTag ht packed child kind m hm

/-- **What is inside an element of raw text**: text up to the first end tag whose name begins with
its own.  It is raw text up to the end tag of the element if there is no end tag of a longer name;
then no element, comment or attribute is in it, and nothing is reported there. -/
theorem raw_parse {identity : TreeId} {source : String}
    (short : source.utf8ByteSize < 2 ^ 32) (h : parse identity source = .ok t)
    (hn : n ∈ t.nodes) (raw : n.HasRawText) :
    (n.RawUpTo fun e more =>
      e.beginsEndTagOf n.toNode = true ∧ (e.isEndTagOf n.toNode = true → more = [])) ∧
    (n.IsRaw ↔ ∀ e ∈ n.children, e.kind = .endTag → e.isEndTagOf n.toNode = true) ∧
    (n.IsRaw →
      (∀ m ∈ n.inside, m.kind ≠ .element ∧ m.kind ≠ .comment ∧ m.kind.isAttribute = false) ∧
      ∀ i : Inspector, i.Stock → ∀ d ∈ i.run t, ∀ m ∈ n.inside, d.anchor.node ≠ m.id) := by
  obtain ⟨ht, settled⟩ := settled_parse short h
  have numbered := numbered_parse h
  have shaped := shaped_parse short h
  obtain ⟨F, proper, rfl⟩ := exists_forest_of_parse short h
  have origin : Origin n.toNode := by
    refine (proper.origin hn).resolve_left fun top => ?_
    obtain ⟨⟨name, named, -⟩, -⟩ := raw
    rw [top] at named
    simp [Node.elementName?, Tree.top, Forest.tree, Fragment.root] at named
  have read := rawUpTo_of_settled ht (settled n hn) origin raw
  refine ⟨read, isRaw_iff read, fun own => ?_⟩
  have kinds := kind_of_mem_inside ht (proper.packed identity) hn own
  refine ⟨fun m hm => ?_, fun i hi d hd m hm same => ?_⟩
  · have kind := kinds m hm
    simp only [rawKinds, List.mem_cons, List.not_mem_nil, or_false] at kind
    rcases kind with kind | kind | kind | kind | kind | kind <;> simp [kind, Kind.isAttribute]
  · obtain ⟨b, hb, anchored, kind⟩ := hi.exists_anchor shaped.1 rfl hd
    have both : b = m :=
      numbered.eq_of_id_eq hb (mem_nodes_of_mem_inside hn hm) (anchored.symm.trans same)
    have inner := kinds m hm
    rw [← both] at inner
    rcases kind with kind | kind <;> simp [kind, rawKinds] at inner

/-- A script in which markup is text. -/
theorem raw_parse_of_script : ∃ (t : Tree) (n : Placed),
    parse 0 "<script>a<b @c='d'></SCRIPT >" = .ok t ∧ n ∈ t.nodes ∧ n.HasRawText ∧ n.IsRaw ∧
      (∀ m ∈ n.inside, m.kind ≠ .element) ∧
      ∀ d ∈ Inspector.default.run t, ∀ m ∈ n.inside, d.anchor.node ≠ m.id := by
  have evaluated : ((parse 0 "<script>a<b @c='d'></SCRIPT >").toOption.any fun t =>
      t.nodes[1]?.any fun n => n.elementName? == some "script" && !n.isSelfClosing &&
        n.children.all fun e => e.kind != .endTag || e.isEndTagOf n.toNode) = true := by
    decide +kernel
  cases parsed : parse 0 "<script>a<b @c='d'></SCRIPT >" with
  | error e => simp [parsed, Except.toOption] at evaluated
  | ok t =>
    obtain ⟨n, found, told⟩ : ∃ n, t.nodes[1]? = some n ∧
        (n.elementName? = some "script" ∧ n.isSelfClosing = false) ∧
          ∀ e ∈ n.children, e.kind = .endTag → e.isEndTagOf n.toNode = true := by
      simpa [parsed, Except.toOption, Option.any_eq_true, ← imp_iff_not_or] using evaluated
    have hn := List.mem_of_getElem? found
    have raw : n.HasRawText := ⟨⟨"script", told.1.1, by decide⟩, told.1.2⟩
    obtain ⟨-, iff, clean⟩ := raw_parse (by decide +kernel) parsed hn raw
    have own := iff.2 told.2
    exact ⟨t, n, rfl, hn, raw, own, fun m hm => ((clean own).1 m hm).1,
      (clean own).2 _ (.inl rfl)⟩

theorem length_of_isRaw (h : n.IsRaw) : n.children.length ≤ 3 := by
  obtain ⟨start, text, rest, split, -, one, ends⟩ := h
  have few : text.length ≤ 1 := by rcases one with rfl | ⟨x, rfl, -⟩ <;> simp
  have few' : rest.length ≤ 1 := by rcases ends with rfl | ⟨e, more, rfl, -, -, rfl⟩ <;> simp
  simp only [split, List.length_cons, List.length_append]
  omega

/-- An end tag of a longer name ends the raw text of a script and does not close it. -/
theorem not_isRaw_of_longer_name : ∃ (t : Tree) (n : Placed),
    parse 0 "<script>a</scripts><p @x=\"y\"></p></script>" = .ok t ∧ n ∈ t.nodes ∧
      n.HasRawText ∧ ¬ n.IsRaw ∧ (∃ m ∈ n.inside, m.kind = .element) ∧
      ∃ d ∈ Inspector.default.run t, ∃ m ∈ n.inside, d.anchor.node = m.id := by
  have evaluated : ((parse 0 "<script>a</scripts><p @x=\"y\"></p></script>").toOption.any fun t =>
      t.nodes[1]?.any fun n => n.elementName? == some "script" && !n.isSelfClosing &&
        n.children.length == 5 && n.inside.any (·.kind == .element) &&
        (Inspector.default.run t).any fun d => n.inside.any (d.anchor.node == ·.id)) = true := by
    decide +kernel
  cases parsed : parse 0 "<script>a</scripts><p @x=\"y\"></p></script>" with
  | error e => simp [parsed, Except.toOption] at evaluated
  | ok t =>
    obtain ⟨n, found, ⟨⟨⟨named, selfClosing⟩, five⟩, element⟩, reported⟩ : ∃ n,
        t.nodes[1]? = some n ∧ (((n.elementName? = some "script" ∧ n.isSelfClosing = false) ∧
          n.children.length = 5) ∧ ∃ m ∈ n.inside, m.kind = .element) ∧
          ∃ d ∈ Inspector.default.run t, ∃ m ∈ n.inside, d.anchor.node = m.id := by
      simpa [parsed, Except.toOption, Option.any_eq_true] using evaluated
    refine ⟨t, n, rfl, List.mem_of_getElem? found, ⟨⟨"script", named, by decide⟩, selfClosing⟩,
      fun own => ?_, element, reported⟩
    have few := length_of_isRaw own
    omega

end Template

end SyntaxLint
