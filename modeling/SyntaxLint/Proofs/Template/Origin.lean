import SyntaxLint.Proofs.Template.Forest

/-!
# Proofs — Templates — what nodes are made from

The forest of items that are as read is well formed: no text follows a text, what closes itself has
nothing inside, and raw text ends as it does where it is read.  So every node of the tree of a
template is a token that is not empty, or made from a tag, an attribute, a value or an element that
is well formed.

* `Forest.Proper`: well-formed forests.
* `proper_plant`: the forest of items that are as read.
* `Origin`: what a node is made from.
* `Forest.Proper.origin`: the nodes of the tree of a well-formed forest.
* `exists_forest_of_parse`: the tree of a template is one of these.
-/

namespace SyntaxLint.Template

open Text

namespace Forest

/-- Whether a text comes first. -/
def startsText : Forest → Bool
  | .text _ _ => true
  | _ => false

/-- Nothing comes, or an end tag whose name begins with `name`, up to case. -/
def EndsRaw (name : List Char) : Forest → Prop
  | .done => True
  | .close tag _ => lower name <+: lower tag.name
  | _ => False

/-- At most one text comes before that, in which no such end tag begins. -/
def StartsRaw (name : List Char) : Forest → Prop
  | .text cs next => StaysRaw name cs ∧ next.EndsRaw name
  | F => F.EndsRaw name

/-- Forests of well-formed pieces, in an order in which they are read. -/
def Proper : Forest → Prop
  | .done => True
  | .comment _ next => next.Proper
  | .text cs next => cs ≠ [] ∧ next.startsText = false ∧ next.Proper
  | .close tag next => tag.Proper ∧ next.Proper
  | .element tag inside next =>
    (tag.Proper ∧ (tag.isClosed = true → inside = .done) ∧
      (tag.hasRawText = true → inside.StartsRaw tag.name) ∧ inside.Proper) ∧ next.Proper

variable {F : Forest} {name : List Char}

theorem startsRaw_iff : F.StartsRaw name ↔
    F.EndsRaw name ∨ ∃ cs next, F = .text cs next ∧ StaysRaw name cs ∧ next.EndsRaw name := by
  cases F <;> simp [StartsRaw, EndsRaw]

end Forest

/-! ### The forest of items that are as read -/

variable {pending : List (List Char)} {items : List Item} {F : Forest} {more : List Forest}

theorem isClosed_of_hasRawText {tag : StartTag} (h : tag.hasRawText = true) :
    tag.isClosed = false := by
  rw [StartTag.hasRawText, Bool.and_eq_true] at h
  simpa using h.1

/-- What a forest begins with is what its items begin with, unless that closes elements. -/
theorem grow_modifyHead {f : Forest → Forest} (h : (grow pending items).modifyHead f = F :: more) :
    ∃ G, F = f G ∧ grow pending items = G :: more := by
  obtain ⟨G, rest, hG, -⟩ := exists_grow pending items
  rw [hG, List.modifyHead_cons] at h
  obtain ⟨rfl, rfl⟩ := List.cons.inj h
  exact ⟨G, rfl, hG⟩

/-- An end tag leaves nothing to come in the innermost open element or comes first there. -/
theorem grow_close {tag : EndTag} (h : grow pending (.close tag :: items) = F :: more) :
    F = .done ∨ ∃ next, F = .close tag next := by
  rw [grow] at h
  cases found : pending.findIdx? (sameFolded tag.name) with
  | none =>
    rw [found] at h
    obtain ⟨G, rfl, -⟩ := grow_modifyHead h
    exact .inr ⟨G, rfl⟩
  | some i =>
    rw [found] at h
    cases i with
    | zero => exact .inr ⟨.done, (List.cons.inj h).1.symm⟩
    | succ i =>
      simp only [List.replicate_succ, List.cons_append] at h
      exact .inl (List.cons.inj h).1.symm

/-- A start tag comes first. -/
theorem grow_start {tag : StartTag} (h : grow pending (.start tag :: items) = F :: more) :
    ∃ inside next, F = .element tag inside next := by
  rw [grow] at h
  split at h
  · obtain ⟨G, rfl, -⟩ := grow_modifyHead h
    exact ⟨.done, G, rfl⟩
  · obtain ⟨G, H, rest, hG, -⟩ := exists_grow_cons tag.name pending items
    rw [hG, wrap] at h
    exact ⟨G, H, (List.cons.inj h).1.symm⟩

theorem startsText_grow (h : grow pending items = F :: more) :
    F.startsText = Template.startsText items := by
  match items with
  | [] =>
    rw [grow, List.replicate_succ] at h
    rw [← (List.cons.inj h).1]
    rfl
  | .comment inner :: items =>
    obtain ⟨G, rfl, -⟩ := grow_modifyHead h
    rfl
  | .text cs :: items =>
    obtain ⟨G, rfl, -⟩ := grow_modifyHead h
    rfl
  | .start tag :: items =>
    obtain ⟨inside, next, rfl⟩ := grow_start h
    rfl
  | .close tag :: items =>
    rcases grow_close h with rfl | ⟨next, rfl⟩ <;> rfl

theorem endsRaw_grow {name : List Char} (ends : EndsRaw name items)
    (h : grow pending items = F :: more) : F.EndsRaw name := by
  match items with
  | [] =>
    rw [grow, List.replicate_succ] at h
    rw [← (List.cons.inj h).1]
    trivial
  | .close tag :: items =>
    rcases grow_close h with rfl | ⟨next, rfl⟩
    · trivial
    · exact ends
  | .comment _ :: _ | .text _ :: _ | .start _ :: _ => exact ends.elim

theorem startsRaw_grow {name : List Char} (starts : StartsRaw name items)
    (h : grow pending items = F :: more) : F.StartsRaw name := by
  rcases starts with ends | ⟨cs, rest, rfl, stays, ends⟩
  · exact Forest.startsRaw_iff.2 (.inl (endsRaw_grow ends h))
  · obtain ⟨G, rfl, hG⟩ := grow_modifyHead h
    exact ⟨stays, endsRaw_grow ends hG⟩

/-- **The forests of items that are as read are well formed.** -/
theorem proper_grow (h : AsRead items) (pending : List (List Char)) :
    ∀ F ∈ grow pending items, F.Proper := by
  induction items generalizing pending with
  | nil =>
    intro F hF
    obtain rfl := List.eq_of_mem_replicate hF
    trivial
  | cons i items ih =>
    have front : ∀ (f : Forest → Forest), AsRead items →
        (∀ (G : Forest) (more : List Forest), grow pending items = G :: more → G.Proper →
          (f G).Proper) →
        ∀ F ∈ (grow pending items).modifyHead f, F.Proper := by
      intro f read head F hF
      obtain ⟨G, more, hG, -⟩ := exists_grow pending items
      have proper := ih read pending
      rw [hG] at hF proper
      rw [List.forall_mem_cons] at proper
      rcases List.mem_cons.1 hF with rfl | hF
      · exact head G more hG proper.1
      · exact proper.2 F hF
    cases i with
    | comment inner => exact front (.comment inner) h fun G _ _ hG => hG
    | text cs =>
      refine front (.text cs) h.2.2 fun G more e hG => ⟨h.1, ?_, hG⟩
      rw [startsText_grow e]
      exact h.2.1
    | start tag =>
      obtain ⟨proper, raw, read⟩ := h
      by_cases closed : tag.isClosed = true
      · rw [grow, if_pos closed]
        refine front (.element tag .done) read fun G _ _ hG =>
          ⟨⟨proper, fun _ => rfl, ?_, trivial⟩, hG⟩
        intro text
        rw [isClosed_of_hasRawText text] at closed
        simp at closed
      · obtain ⟨G, H, more, hG, -⟩ := exists_grow_cons tag.name pending items
        have inner := ih read (tag.name :: pending)
        rw [hG, List.forall_mem_cons, List.forall_mem_cons] at inner
        obtain ⟨properG, properH, rest⟩ := inner
        rw [grow, if_neg closed, hG, wrap, List.forall_mem_cons]
        exact ⟨⟨⟨proper, fun e => absurd e closed, fun text => startsRaw_grow (raw text) hG,
          properG⟩, properH⟩, rest⟩
    | close tag =>
      rw [grow]
      cases pending.findIdx? (sameFolded tag.name) with
      | none => exact front (.close tag) h.2 fun G _ _ hG => ⟨h.1, hG⟩
      | some i =>
        intro F hF
        rcases List.mem_append.1 hF with hF | hF
        · obtain rfl := List.eq_of_mem_replicate hF
          trivial
        · rcases List.mem_cons.1 hF with rfl | hF
          · exact ⟨h.1, trivial⟩
          · exact ih h.2 _ F hF

theorem proper_plant (h : AsRead items) : (plant items).Proper :=
  proper_grow h [] _ (by rw [grow_nil_eq]; exact List.mem_singleton_self _)

/-! ### Nodes -/

/-- What is below a node with children, and its kind: the document apart, the node is made from an
element, a tag, an attribute or a value. -/
inductive Made : Kind → Fragment → Prop
  | element {tag : StartTag} {inside : Forest} (h : (Forest.element tag inside .done).Proper) :
      Made .element (tag.fragment.append inside.fragment)
  | startTag {tag : StartTag} (h : tag.Proper) : Made .startTag tag.below
  | endTag {tag : EndTag} (h : tag.Proper) : Made .endTag tag.below
  | attr {a : Attribute} (h : a.Proper) : Made (AttributeName.kindOf a.name) a.below
  | value {v : Value} (h : v.Proper) : Made .attributeValue v.fragment

/-- A node of a template other than the document: a token that is not empty, or a node made from
some piece. -/
inductive Origin : Node → Prop
  | token {id : NodeId} {kind : Kind} {text : String} (h : kind.isToken = true) (full : text ≠ "") :
      Origin ⟨id, kind, .tail text⟩
  | made {kind : Kind} {a : Fragment} (h : Made kind a) (free : NodeId) : Origin (a.root kind free)

/-- A node that is made and nodes below it. -/
theorem Made.all {kind : Kind} {a : Fragment} (h : Made kind a) (below : a.All Origin) :
    (a.node kind).All Origin :=
  .root (.made h) below

theorem ofList_ne_empty {cs : List Char} (ne : cs ≠ []) : String.ofList cs ≠ "" :=
  fun e => ne (by simpa using congrArg String.toList e)

theorem all_leaf {kind : Kind} {text : String} (h : kind.isToken = true) (full : text ≠ "") :
    (Fragment.leaf kind text).All Origin :=
  .leaf fun _ => .token h full

/-- A token, unless it is empty. -/
theorem all_leaf?_origin {kind : Kind} (h : kind.isToken = true) (cs : List Char) :
    (leaf? kind cs).All Origin :=
  all_leaf? fun ne _ => .token h (ofList_ne_empty ne)

theorem Value.Proper.all {v : Value} (h : v.Proper) : v.fragment.All Origin := by
  cases v with
  | quoted q s =>
    have quote : (Fragment.leaf .quote (String.ofList [q])).All Origin :=
      all_leaf rfl (ofList_ne_empty (List.cons_ne_nil q []))
    exact quote.append ((all_leaf?_origin rfl s).append quote)
  | bare s => exact all_leaf rfl (ofList_ne_empty h)

theorem Assignment.Proper.all {a : Assignment} (h : a.Proper) : a.fragment.All Origin := by
  have equals : (Fragment.leaf .equals "=").All Origin := all_leaf rfl (by decide)
  cases a with
  | none => exact .none
  | equals gap => exact (all_leaf?_origin rfl gap).append equals
  | value gap inner v =>
    have value : (v.fragment.node .attributeValue).All Origin :=
      (Made.value h).all (Value.Proper.all h)
    exact (all_leaf?_origin rfl gap).append
      (equals.append ((all_leaf?_origin rfl inner).append value))

theorem Attribute.Proper.all {a : Attribute} (h : a.Proper) : a.below.All Origin :=
  (all_leaf rfl (ofList_ne_empty h.name)).append h.assignment.all

theorem TagPart.Proper.all {p : TagPart} (h : p.Proper) : p.fragment.All Origin := by
  cases p with
  | blank s => exact all_leaf rfl (ofList_ne_empty h)
  | attr a => exact (Made.attr h).all (Attribute.Proper.all h)
  | stray c => exact all_leaf rfl (ofList_ne_empty (List.cons_ne_nil c []))

theorem all_partsFragment {parts : List TagPart} (h : ∀ p ∈ parts, p.Proper) :
    (partsFragment parts).All Origin := by
  induction parts with
  | nil => exact .none
  | cons p parts ih =>
    rw [List.forall_mem_cons] at h
    exact h.1.all.append (ih h.2)

theorem closing_ne_nil (tag : StartTag) : tag.closing ≠ [] := by
  unfold StartTag.closing
  split <;> simp

theorem StartTag.Proper.all {tag : StartTag} (h : tag.Proper) : tag.fragment.All Origin := by
  have name : (Fragment.leaf .tagName (String.ofList tag.name)).All Origin :=
    all_leaf rfl (ofList_ne_empty h.name)
  have last : (Fragment.leaf .tagClose (String.ofList tag.closing)).All Origin :=
    all_leaf rfl (ofList_ne_empty (closing_ne_nil tag))
  exact (Made.startTag h).all ((all_leaf rfl (by decide)).append
    (name.append ((all_partsFragment h.parts).append last)))

theorem EndTag.Proper.all {tag : EndTag} (h : tag.Proper) : tag.fragment.All Origin := by
  have name : (Fragment.leaf .tagName (String.ofList tag.name)).All Origin :=
    all_leaf rfl (ofList_ne_empty h)
  exact (Made.endTag h).all ((all_leaf rfl (by decide)).append
    (name.append ((all_leaf?_origin rfl tag.gap).append (all_leaf rfl (by decide)))))

/-- The text of a comment is not empty, whatever is inside. -/
theorem print_comment_ne_nil (inner : List Char) : (Item.comment inner).print ≠ [] := by
  simp [Item.print]

/-- **Every node of a well-formed forest is made from a well-formed piece.** -/
theorem Forest.Proper.all {F : Forest} (h : F.Proper) : F.fragment.All Origin := by
  induction F with
  | done => exact .none
  | comment inner next ih =>
    exact (all_leaf rfl (ofList_ne_empty (print_comment_ne_nil inner))).append (ih h)
  | text cs next ih => exact (all_leaf rfl (ofList_ne_empty h.1)).append (ih h.2.2)
  | close tag next ih => exact h.1.all.append (ih h.2)
  | element tag inside next ihi ihn =>
    obtain ⟨proper, hn⟩ := h
    have below : (tag.fragment.append inside.fragment).All Origin :=
      proper.1.all.append (ihi proper.2.2.2)
    exact ((Made.element ⟨proper, trivial⟩).all below).append (ihn hn)

/-- **A template that offsets reach is parsed to the tree of a well-formed forest.** -/
theorem exists_forest_of_parse {identity : TreeId} {source : String} {t : Tree}
    (short : source.utf8ByteSize < 2 ^ 32) (h : parse identity source = .ok t) :
    ∃ F : Forest, F.Proper ∧ t = F.tree identity := by
  obtain ⟨items, read, rfl⟩ := (parse_eq_ok_iff_grow short).1 h
  exact ⟨plant items, proper_plant (asRead_of_scan read), rfl⟩

/-- The nodes of a tree of a well-formed forest, the document apart. -/
theorem Forest.Proper.origin {F : Forest} (h : F.Proper) {identity : TreeId} {n : Placed}
    (hn : n ∈ (F.tree identity).nodes) : n = (F.tree identity).top ∨ Origin n.toNode := by
  rw [Tree.nodes_eq, Placed.preorder] at hn
  refine (List.mem_cons.1 hn).imp_right fun hn => ?_
  exact h.all 0 n.toNode (Content.toNode_mem_members hn)

end SyntaxLint.Template
