import SyntaxLint.Proofs.Template.EndTags

/-!
# Proofs — Templates — the accessor of the closing tag

The parser keeps an end tag that closes nothing where it stands, so an element may have several end
tags among its children; at most one of them closes it, and that is the last child.  The accessor
takes the first.  So it gives the closing tag of an element, and nothing where there is none, unless
an end tag that closes nothing stands directly in the element; then it gives the first of those.
All this is about sources whose end offsets reach.

* `Tree.IsStray`: an end tag of a name that no element around it has.
* `Element.TellsClosing`: what the accessor promises.
* `endTag?_parse`: what it gives, and when it keeps its promise.
-/

namespace SyntaxLint

/-- An end tag of a name that no element around it has. -/
def Tree.IsStray (t : Tree) (e : Placed) : Prop :=
  e.kind = .endTag ∧ ∀ p ∈ t.ancestors e.id, e.isEndTagOf p.toNode = false

/-- What the accessor of the closing tag promises: it gives the last child of the element, a tag of
the name of the element up to case, and it gives nothing if the element has no such tag. -/
structure Element.TellsClosing (el : Element) : Prop where
  closing : ∀ e, el.endTag? = some e → el.node.children.getLast? = some e ∧
    ∃ token name, e.required .tagName = .ok token ∧ el.tagName = .ok name ∧
      Text.sameFolded token.text.toList name.toList = true
  absent : el.node.ownEndTag? = none → el.endTag? = none

namespace Element

variable {el : Element} {e : Placed} {t : Tree}

/-- The first end tag among the children of an element that has another name. -/
def foreign? (el : Element) : Option Placed :=
  el.node.children.find? fun c => c.kind == .endTag && !c.isEndTagOf el.node.toNode

/-! ### Names -/

theorem tagName?_eq_some_iff {name : String} :
    e.tagName? = some name ↔ ∃ token, e.required .tagName = .ok token ∧ token.text = name := by
  rw [Node.tagName?, ← Placed.map_toNode_child?, Placed.required]
  cases e.child? .tagName <;> simp [Placed.text]

theorem elementName?_eq_some_iff {name : String} :
    el.node.elementName? = some name ↔ el.tagName = .ok name := by
  rw [Node.elementName?, if_pos el.kind_eq, ← Placed.map_toNode_child?, tagName, startTag,
    Placed.required]
  cases el.node.child? .startTag with
  | none => simp [bind, Except.bind]
  | some tag =>
    rw [Option.map_some, Option.bind_some, tagName?_eq_some_iff]
    cases h : tag.required .tagName <;> simp [bind, Except.bind, pure, Except.pure, h]

/-- An end tag has the name of an element if the tokens in the two tags agree up to case. -/
theorem isEndTagOf_iff (kind : e.kind = .endTag) : e.isEndTagOf el.node.toNode = true ↔
    ∃ token name, e.required .tagName = .ok token ∧ el.tagName = .ok name ∧
      Text.sameFolded token.text.toList name.toList = true := by
  have told : e.endTagName? = e.tagName? := by rw [Node.endTagName?, if_pos kind]
  rw [Node.isEndTagOf, told]
  constructor
  · intro same
    cases tag : e.tagName? with
    | none => simp [tag] at same
    | some a =>
      cases name : el.node.elementName? with
      | none => simp [name] at same
      | some b =>
        obtain ⟨token, found, rfl⟩ := tagName?_eq_some_iff.1 tag
        exact ⟨token, b, found, elementName?_eq_some_iff.1 name, by simpa [tag, name] using same⟩
  · rintro ⟨token, name, found, named, same⟩
    rw [tagName?_eq_some_iff.2 ⟨token, found, rfl⟩, elementName?_eq_some_iff.2 named]
    exact same

/-! ### The end tags of an element -/

theorem kind_of_endTag? (h : el.endTag? = some e) : e.kind = .endTag := by
  simpa using List.find?_some h

/-- The promise is that of the last child, if that is a tag of the name of the element. -/
theorem tellsClosing_iff : el.TellsClosing ↔ el.endTag? = el.node.ownEndTag? := by
  constructor
  · intro h
    cases given : el.endTag? with
    | some e =>
      obtain ⟨last, same⟩ := h.closing e given
      refine (Option.filter_eq_some_iff.2 ⟨last, ?_⟩).symm
      exact (isEndTagOf_iff (kind_of_endTag? given)).2 same
    | none =>
      refine (Option.eq_none_iff_forall_ne_some.2 fun e own => ?_).symm
      -- its own end tag would have been found
      obtain ⟨mem, same⟩ := Template.mem_of_ownEndTag? own
      have kind := Template.kind_of_isEndTagOf same
      exact List.find?_eq_none.1 given e mem (by simpa using kind)
  · intro same
    refine ⟨fun e given => ?_, fun none => same.trans none⟩
    obtain ⟨last, own⟩ := Option.filter_eq_some_iff.1 (same.symm.trans given)
    exact ⟨last, (isEndTagOf_iff (kind_of_endTag? given)).1 own⟩

/-- The first node of a list that satisfies `p`, where nothing follows one that satisfies `q` as
well: the first that does not satisfy `q`, or else the last node. -/
theorem find?_eq_or {p q : Placed → Bool} {ns : List Placed}
    (last : ∀ pre c post, ns = pre ++ c :: post → p c = true → q c = true → post = []) :
    ns.find? p = (ns.find? fun c => p c && !q c).or (ns.getLast?.filter fun c => p c && q c) := by
  induction ns with
  | nil => rfl
  | cons n ns ih =>
    have rest := ih fun pre c post split => last (n :: pre) c post (by simp [split])
    by_cases hp : p n = true
    · by_cases hq : q n = true
      · obtain rfl := last [] n ns rfl hp hq
        simp [hp, hq, Option.filter]
      · simp [hp, hq]
    · rw [List.find?_cons_of_neg hp, rest, List.find?_cons_of_neg (by simp [hp])]
      cases ns with
      | nil => simp [hp, Option.filter]
      | cons m ns => rw [List.getLast?_cons_cons]

/-- **The first end tag of an element** is the first of another name, or else its own, where
nothing follows a tag of the name of the element. -/
theorem endTag?_eq (last : ∀ pre c post, el.node.children = pre ++ c :: post →
    c.isEndTagOf el.node.toNode = true → post = []) :
    el.endTag? = el.foreign?.or el.node.ownEndTag? := by
  have own : (fun c : Placed => c.isEndTagOf el.node.toNode) = fun c =>
      c.kind == .endTag && c.isEndTagOf el.node.toNode := by
    ext c
    rw [Bool.eq_iff_iff, Bool.and_eq_true, beq_iff_eq]
    exact iff_and_self.2 Template.kind_of_isEndTagOf
  rw [Placed.ownEndTag?, own]
  exact find?_eq_or fun pre c post split _ => last pre c post split

/-- A tag of another name does not close the element. -/
theorem ownEndTag?_ne_foreign? (h : el.foreign? = some e) : el.node.ownEndTag? ≠ some e := by
  intro own
  have other := List.find?_some h
  simp [(Template.mem_of_ownEndTag? own).2] at other

end Element

namespace Template

variable {t : Tree} {el : Element} {e : Placed}

/-- Nothing follows an end tag of the name of an element in that element. -/
theorem Settled.endTag_last {path : List Placed} (h : Settled t el.node path) (ht : t.Conforming)
    (pre : List Placed) (c : Placed) (post : List Placed)
    (split : el.node.children = pre ++ c :: post) (own : c.isEndTagOf el.node.toNode = true) :
    post = [] :=
  ((h.around.endTag ht h.mem split (kind_of_isEndTagOf own)).2
    ⟨el.node, List.mem_cons_self, own⟩).2

/-- An end tag directly in an element closes nothing if it does not have the name of the
element. -/
theorem Settled.isStray_iff (h : Settled t el.node (t.ancestors el.node.id)) (ht : t.Conforming)
    (numbered : t.Numbered) (he : e ∈ el.node.children) :
    t.IsStray e ↔ e.kind = .endTag ∧ e.isEndTagOf el.node.toNode = false := by
  have above := numbered.ancestors_of_mem_children h.mem he
  rw [Tree.IsStray, above]
  refine and_congr_right fun kind => ⟨fun none => none _ List.mem_cons_self, fun other p hp => ?_⟩
  obtain ⟨pre, post, split⟩ := List.append_of_mem he
  by_contra among
  obtain ⟨own, -⟩ := (h.around.endTag ht h.mem split kind).2 ⟨p, hp, by simpa using among⟩
  simp [own] at other

/-- An element that is void or closes itself has a start tag and nothing else. -/
theorem endTag?_of_closed (ht : t.Conforming) (hn : el.node ∈ t.nodes)
    (closed : el.node.isVoid = true ∨ el.node.isSelfClosing = true) : el.endTag? = none := by
  have children := ht.production hn (by rw [el.kind_eq]; rfl)
  rw [el.kind_eq] at children
  generalize same : el.node.children.map (·.toNode) = ns at children
  cases children with
  | attr told => simpa [Kind.isAttribute] using isAttribute_of_eq told
  | @element _ flow start none =>
    obtain ⟨tag, rest, split, rfl, below⟩ := List.map_eq_cons_iff.1 same
    have first : el.node.body.child? .startTag = some tag.toNode := by
      rw [← Placed.map_toNode_child?, Placed.child?, split,
        List.find?_cons_of_pos (by simp [start])]
      rfl
    have alone : flow = [] := by
      refine none (closed.symm.imp (fun itself => ?_) fun void => ?_)
      · simpa [Node.isSelfClosing, first] using itself
      · simpa [Node.isVoid, Node.elementName?, el.kind_eq, first, Option.any_eq_true] using void
    obtain rfl : rest = [] := by simpa [alone] using below
    simp [Element.endTag?, Placed.child?, split, start]

/-- **What the accessor of the closing tag gives**: the first end tag directly in the element that
closes nothing, or else the tag that closes the element.  So it keeps its promise for the elements
with no end tag directly in them that closes nothing, and for no others. -/
theorem endTag?_parse {identity : TreeId} {source : String}
    (short : source.utf8ByteSize < 2 ^ 32) (h : parse identity source = .ok t)
    (el : Element) (hn : el.node ∈ t.nodes) :
    el.endTag? = el.foreign?.or el.node.ownEndTag? ∧
    (∀ e, el.foreign? = some e → t.IsStray e ∧ e ∈ el.node.children) ∧
    (el.TellsClosing ↔ ∀ e ∈ el.node.children, ¬ t.IsStray e) ∧
    (el.node.isVoid = true ∨ el.node.isSelfClosing = true → el.endTag? = none) := by
  obtain ⟨ht, settled⟩ := settled_parse short h
  have here := settled _ hn
  have stray : ∀ e ∈ el.node.children, t.IsStray e ↔ _ := fun e he =>
    here.isStray_iff ht (numbered_parse h) he
  have first := Element.endTag?_eq (here.endTag_last ht)
  refine ⟨first, fun e other => ?_, ?_, endTag?_of_closed ht hn⟩
  · have mem := List.mem_of_find?_eq_some other
    exact ⟨(stray e mem).2 (by simpa using List.find?_some other), mem⟩
  · rw [Element.tellsClosing_iff, first]
    constructor
    · intro same e he closes
      cases other : el.foreign? with
      | none =>
        obtain ⟨kind, name⟩ := (stray e he).1 closes
        exact List.find?_eq_none.1 other e he (by simp [kind, name])
      | some f =>
        rw [other, Option.some_or] at same
        exact Element.ownEndTag?_ne_foreign? other same.symm
    · intro none
      cases other : el.foreign? with
      | none => rw [Option.none_or]
      | some f =>
        have mem := List.mem_of_find?_eq_some other
        refine absurd ((stray f mem).2 ?_) (none f mem)
        simpa using List.find?_some other

/-- An element with a stray end tag beside it, closed in another case. -/
theorem endTag?_parse_of_closed : ∃ (t : Tree) (el : Element) (e : Placed),
    parse 0 "<p></b><i>x</I>" = .ok t ∧ el.node ∈ t.nodes ∧ el.endTag? = some e ∧
      el.node.ownEndTag? = some e ∧ el.TellsClosing := by
  have evaluated : ((parse 0 "<p></b><i>x</I>").toOption.any fun t => t.nodes.any fun n =>
      n.kind == .element && n.ownEndTag?.isSome && n.children.all fun e =>
        e.kind != .endTag || (t.ancestors e.id).any fun p => e.isEndTagOf p.toNode) = true := by
    decide +kernel
  cases parsed : parse 0 "<p></b><i>x</I>" with
  | error e => simp [parsed, Except.toOption] at evaluated
  | ok t =>
    obtain ⟨n, hn, ⟨kind, owned⟩, named⟩ : ∃ n ∈ t.nodes, (n.kind = .element ∧
        n.ownEndTag?.isSome = true) ∧ ∀ e ∈ n.children, e.kind = .endTag →
          ∃ p ∈ t.ancestors e.id, e.isEndTagOf p.toNode = true := by
      simpa [parsed, Except.toOption, List.any_eq_true, ← imp_iff_not_or] using evaluated
    obtain ⟨-, -, tells, -⟩ := endTag?_parse (by decide +kernel) parsed ⟨n, kind⟩ hn
    have closing : Element.TellsClosing ⟨n, kind⟩ := by
      refine tells.2 fun e he stray => ?_
      obtain ⟨p, hp, same⟩ := named e he stray.1
      simp [stray.2 p hp] at same
    obtain ⟨e, own⟩ := Option.isSome_iff_exists.1 owned
    exact ⟨t, ⟨n, kind⟩, e, rfl, hn, (Element.tellsClosing_iff.1 closing).trans own, own, closing⟩

/-- An end tag that closes nothing is given in place of the tag that closes the element. -/
theorem not_tellsClosing_of_stray : ∃ (t : Tree) (el : Element) (e c : Placed),
    parse 0 "<div></span></div>" = .ok t ∧ el.node ∈ t.nodes ∧ el.endTag? = some e ∧
      el.node.ownEndTag? = some c ∧ e.text = "</span>" ∧ c.text = "</div>" ∧
      ¬ el.TellsClosing := by
  have evaluated : ((parse 0 "<div></span></div>").toOption.any fun t => t.nodes.any fun n =>
      n.kind == .element && ((n.child? .endTag).any fun e => e.text == "</span>") &&
        n.ownEndTag?.any fun c => c.text == "</div>") = true := by
    decide +kernel
  cases parsed : parse 0 "<div></span></div>" with
  | error e => simp [parsed, Except.toOption] at evaluated
  | ok t =>
    obtain ⟨n, hn, ⟨kind, e, given, span⟩, c, own, div⟩ : ∃ n ∈ t.nodes, (n.kind = .element ∧
        ∃ e, n.child? .endTag = some e ∧ e.text = "</span>") ∧
          ∃ c, n.ownEndTag? = some c ∧ c.text = "</div>" := by
      simpa [parsed, Except.toOption, List.any_eq_true, Option.any_eq_true, and_assoc]
        using evaluated
    refine ⟨t, ⟨n, kind⟩, e, c, rfl, hn, given, own, span, div, fun tells => ?_⟩
    have same : n.child? .endTag = n.ownEndTag? := Element.tellsClosing_iff.1 tells
    rw [given, own, Option.some.injEq] at same
    simp [same, div] at span

end Template

end SyntaxLint
