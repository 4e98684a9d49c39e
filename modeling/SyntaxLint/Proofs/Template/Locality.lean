import SyntaxLint.Proofs.Template.EndTags
import SyntaxLint.Proofs.Template.Faults
import SyntaxLint.Proofs.Template.Site

/-!
# Proofs — Templates — one template after another

Where a template ends nothing is left open if every element in it is closed by a tag of its own and
no text comes last: whatever stands behind it is scanned and nested as it is alone.  So the nodes of
the two templates together are those of the first and then those of the second, moved.

* `Item.Sealed`, `scan_append`: items that end by themselves, and scanning on behind them.
* `Forest.Complete`, `plant_append`: forests with nothing left open, and nesting on behind them.
* `Outline.shift`: a run of nodes that is moved.
* `parse_append`: the tree of one template after another, and its errors.
-/

namespace SyntaxLint

open Text

namespace Template

variable {cs rest tail : List Char} {item : Item} {items : List Item}

/-! ### Scanning on -/

/-- An item that ends by itself: no text, and no tag that raw text comes after. -/
def Item.Sealed : Item → Prop
  | .text _ => False
  | .start tag => tag.hasRawText = false
  | .comment _ | .close _ => True

theorem revises_self {c : Char} (h : scanItem c cs = .ok (item, rest)) : item.Revises item := by
  rcases scanItem_cases h with ⟨inner, rfl, -⟩ | ⟨tag, rfl, -⟩ | ⟨tag, rfl, -, hs⟩ | ⟨s, rfl, -⟩
  · exact .comment inner
  · exact .close tag
  · exact .start (stable_of_revised hs (revised_self _ _ _))
  · exact .text _

theorem startsMarkup_mono (h : startsMarkup cs = true) (more : List Char) :
    startsMarkup (cs ++ more) = true := by
  have named : ∀ s : List Char, startsName s = true → startsName (s ++ more) = true := by
    rintro (_ | ⟨c, s⟩) h
    · simp [startsName] at h
    · exact h
  simp only [startsMarkup, Bool.or_eq_true] at h ⊢
  rcases h with (h | h) | h
  · obtain ⟨r, rfl⟩ := startsComment_iff.1 h
    exact .inl (.inl rfl)
  · obtain ⟨r, rfl⟩ := startsEndTag_head h
    exact .inl (.inr (named r h))
  · obtain ⟨r, rfl⟩ := startsStartTag_head h
    exact .inr (named r h)

/-- A text that is followed by something ends there, whatever comes after that. -/
theorem beginAlike_append (ne : rest ≠ []) (stops : rest = [] ∨ startsMarkup rest = true)
    (more : List Char) : BeginAlike rest (rest ++ more) := by
  have markup := stops.resolve_left ne
  refine ⟨?_, by rw [markup, startsMarkup_mono markup]⟩
  obtain ⟨c, rest, rfl⟩ := List.exists_cons_of_ne_nil ne
  rfl

/-- The end tag after raw text is long enough to be told. -/
theorem length_of_startsFolded {head : List Char} (h : startsFolded head cs = true) :
    head.length ≤ cs.length := by
  have size := congrArg List.length (lower_take_of_startsFolded h)
  simp only [lower, List.length_map, List.length_take] at size
  omega

/-- A text ends where another item begins, or the template ends. -/
theorem stops_of_scanItem {c : Char} {s : List Char} (h : scanItem c cs = .ok (.text s, rest)) :
    rest = [] ∨ startsMarkup rest = true := by
  rcases scanItem_cases h with ⟨_, e, -⟩ | ⟨_, e, -⟩ | ⟨_, e, -⟩ | ⟨_, -, -, hs⟩
  · simp at e
  · simp at e
  · simp at e
  · simpa [hs] using spanUntil_rest startsMarkup cs

/-- An item and its raw text are read with anything behind them, if these end as they did. -/
theorem scan_cons_append {c : Char} {raw ds : List Char} (hi : scanItem c cs = .ok (item, rest))
    (alike : ∀ s, item = .text s → BeginAlike rest (rest ++ ds))
    (raw' : item.rawText (rest ++ ds) = (raw, tail ++ ds)) :
    scan (c :: cs ++ ds) = (scan (tail ++ ds)).map ((item :: text? raw) ++ ·) := by
  obtain ⟨d, ds', printed, reads, -⟩ := scanItem_revised hi (revises_self hi) alike
  have whole : c :: cs ++ ds = d :: ds' := by
    rw [← printed, ← scanItem_print hi, List.append_assoc]
  rw [whole, scan_cons_eq reads, raw']

theorem rawText_of_sealed (h : item.Sealed) (cs : List Char) : item.rawText cs = ([], cs) := by
  cases item with
  | start tag => simp [Item.rawText, show tag.hasRawText = false from h]
  | comment | text | close => rfl

/-- Where something comes after raw text that is the end tag, and it is told with anything behind
it. -/
theorem rawText_append_of_ne_nil {c : Char} {raw : List Char}
    (hi : scanItem c cs = .ok (item, rest)) (hr : item.rawText rest = (raw, tail)) (ne : tail ≠ [])
    (ds : List Char) : item.rawText (rest ++ ds) = (raw, tail ++ ds) := by
  have split : raw ++ tail = rest := by simpa [hr] using item.rawText_append rest
  rw [← split, List.append_assoc]
  refine rawText_revised hr (revises_self hi) (fun none => absurd none ne) ?_
  rintro tag rfl hasRaw
  simp only [Item.rawText, if_pos hasRaw] at hr
  have stops : startsFolded ('<' :: '/' :: tag.name) tail = true := by
    simpa [hr, ne] using spanUntil_rest (startsFolded ('<' :: '/' :: tag.name)) rest
  have long := length_of_startsFolded stops
  exact (List.take_append_of_le_length (by simpa only [List.length_cons] using long)).symm

/-- **Items that end by themselves are scanned the same with anything behind them**, and that is
scanned as it is alone. -/
theorem scan_append (h : scan cs = .ok items) (last : ∀ i, items.getLast? = some i → i.Sealed)
    (ds : List Char) : scan (cs ++ ds) = (scan ds).map (items ++ ·) := by
  fun_induction scan cs generalizing items with
  | case1 =>
    obtain rfl : [] = items := by simpa using h
    cases hd : scan ds <;> simp [Except.map, hd]
  | case2 c cs item rest hi more hm ih =>
    obtain rfl : item :: text? (item.rawText rest).1 ++ more = items := by simpa using h
    obtain ⟨raw, tail, hr⟩ : ∃ raw tail, item.rawText rest = (raw, tail) := ⟨_, _, rfl⟩
    have split : raw ++ tail = rest := by simpa [hr] using item.rawText_append rest
    rw [hr] at hm ih last ⊢
    cases tail with
    | nil =>
      -- the item is the last one: it has no raw text, and takes no more than it did
      obtain rfl : [] = more := by simpa [scan_nil] using hm
      have none : raw = [] := by
        by_contra ne
        have text : text? raw = [.text raw] := by simp [text?, ne]
        exact last (.text raw) (by simp [text])
      subst none
      obtain rfl : [] = rest := by simpa using split
      have sealed : item.Sealed := last item rfl
      have raw' : item.rawText ([] ++ ds) = ([], [] ++ ds) := rawText_of_sealed sealed ds
      have read := scan_cons_append hi (fun s e => by subst e; exact sealed.elim) raw'
      simpa using read
    | cons d tail =>
      have later : ∀ i, more.getLast? = some i → i.Sealed := fun i hi =>
        last i (by simp [List.getLast?_append, List.getLast?_cons, hi])
      have raw' := rawText_append_of_ne_nil hi hr (List.cons_ne_nil d tail) ds
      have alike : ∀ s, item = .text s → BeginAlike rest (rest ++ ds) := by
        rintro s rfl
        obtain ⟨-, rfl⟩ : [] = raw ∧ rest = d :: tail := by simpa [Item.rawText] using hr
        exact beginAlike_append (List.cons_ne_nil d tail) (stops_of_scanItem hi) ds
      have read := scan_cons_append hi alike raw'
      rw [read, ih hm later]
      cases scan ds <;> simp [Except.map]
  | case3 => simp at h
  | case4 => simp at h

/-! ### Nesting on -/

namespace Forest

/-- One forest and then another. -/
def append : Forest → Forest → Forest
  | .done, G => G
  | .comment inner next, G => .comment inner (next.append G)
  | .text cs next, G => .text cs (next.append G)
  | .close tag next, G => .close tag (next.append G)
  | .element tag inside next, G => .element tag inside (next.append G)

/-- Nothing is left open in the forest, which stands inside elements of the given names: an element
is closed by its start tag or by an end tag of its own, and an end tag of one of these names by
being the last thing. -/
def Complete (names : List (List Char)) : Forest → Prop
  | .done => True
  | .comment _ next | .text _ next => next.Complete names
  | .close tag next =>
    (names.any (sameFolded tag.name) = true →
      names.head?.any (sameFolded tag.name) = true ∧ next = .done) ∧ next.Complete names
  | .element tag inside next =>
    (tag.isClosed = true ∧ inside = .done ∨
      tag.isClosed = false ∧ inside.IsClosed tag.name ∧ inside.Complete (tag.name :: names)) ∧
    next.Complete names

variable {name : List Char} {names : List (List Char)} {F : Forest}

/-- Items behind a forest that stands inside elements of the given names are nested as they are
alone: where the forest closes the innermost of these they come after that element, and else behind
the forest. -/
structure Before (names : List (List Char)) (F : Forest) (items : List Item) : Prop where
  closed : ∀ name outer, names = name :: outer → F.IsClosed name →
    grow names (F.items ++ items) = F :: grow outer items
  notClosed : (∀ name ∈ names.head?, ¬ F.IsClosed name) →
    grow names (F.items ++ items) = (grow names items).modifyHead F.append

/-- Something that comes first, and neither ends nor closes an element around it. -/
theorem Before.front {f : Forest → Forest} {items : List Item} (h : F.Before names items)
    (front : List Item)
    (grown : ∀ items, grow names (front ++ items) = (grow names items).modifyHead f)
    (split : (f F).items = front ++ F.items) (append : (f F).append = f ∘ F.append)
    (same : ∀ name ∈ names.head?, (f F).IsClosed name ↔ F.IsClosed name) :
    (f F).Before names items := by
  constructor
  case closed =>
    rintro name outer rfl closed
    rw [split, List.append_assoc, grown, h.closed name outer rfl ((same name rfl).1 closed)]
    rfl
  case notClosed =>
    intro notClosed
    rw [split, List.append_assoc, grown,
      h.notClosed fun name hn closed => notClosed name hn ((same name hn).2 closed), append]
    exact List.modifyHead_modifyHead

/-- **Items behind a forest with nothing left open are nested as they are alone.** -/
theorem Complete.before (h : F.Complete names) (items : List Item) : F.Before names items := by
  induction F generalizing names items with
  | done =>
    refine ⟨fun _ _ _ closed => closed.elim, fun _ => ?_⟩
    obtain ⟨G, more, grown, -⟩ := exists_grow names items
    simp [Forest.items, grown, append]
  | comment inner next ih =>
    exact (ih h items).front (f := .comment inner) [.comment inner]
      (fun _ => rfl) rfl rfl fun _ _ => .rfl
  | text cs next ih =>
    exact (ih h items).front (f := .text cs) [.text cs] (fun _ => rfl) rfl rfl
      fun _ _ => .rfl
  | close tag next ih =>
    obtain ⟨last, rest⟩ := h
    cases found : names.findIdx? (sameFolded tag.name) with
    | none =>
      have stray : ∀ name ∈ names, sameFolded tag.name name = false := by simpa using found
      refine (ih rest items).front (f := .close tag) [.close tag] (fun items => ?_) rfl
        rfl fun name hn => ?_
      · simp [grow, found]
      · have other := stray name (List.mem_of_mem_head? hn)
        cases next <;> simp [IsClosed, other]
    | some i =>
      -- the tag closes an element around the forest, and so it is the last thing there
      have any : names.any (sameFolded tag.name) = true := by
        rw [← List.findIdx?_isSome, found]
        rfl
      obtain ⟨head, rfl⟩ := last any
      cases names with
      | nil => simp at head
      | cons name outer =>
        have same : sameFolded tag.name name = true := by simpa using head
        refine ⟨?_, fun notClosed => absurd same (notClosed name rfl)⟩
        rintro _ _ ⟨rfl, rfl⟩ -
        simp [Forest.items, grow, List.findIdx?_cons, same]
  | element tag inside next ihi ihn =>
    obtain ⟨inner, rest⟩ := h
    refine (ihn rest items).front (f := .element tag inside) (.start tag :: inside.items)
      (fun items => ?_) rfl rfl fun _ _ => .rfl
    rcases inner with ⟨closed, rfl⟩ | ⟨opens, closed, inner⟩
    · simp [Forest.items, grow, closed]
    · have within := (ihi inner items).closed tag.name names rfl closed
      obtain ⟨G, more, grown, -⟩ := exists_grow names items
      simp [grow, opens, within, grown, wrap]

end Forest

/-- **Items behind a template with nothing left open are nested as they are alone.** -/
theorem plant_append {items : List Item} (h : (plant items).Complete []) (more : List Item) :
    plant (items ++ more) = (plant items).append (plant more) := by
  have grown := (h.before more).notClosed (by simp)
  rw [items_plant, grow_nil_eq, grow_nil_eq] at grown
  exact List.singleton_inj.1 grown

/-! ### Forests of trees -/

namespace Forest

variable {name : List Char} {names : List (List Char)} {F : Forest} {free : NodeId}

/-- Where an end tag for the element around it is in a paired forest, the forest closes that. -/
theorem Paired.isClosed (h : F.Paired (name :: names)) {e p : Node}
    (he : e ∈ F.fragment.nodes free) (own : e.isEndTagOf p = true)
    (named : p.elementName? = some (String.ofList name)) : F.IsClosed name := by
  have kind := kind_of_isEndTagOf own
  induction F generalizing free with
  | done => simp [fragment, Fragment.none] at he
  | comment _ next ih | text _ next ih =>
    rcases List.mem_cons.1 he with rfl | he
    · simp at kind
    · exact ih h he
  | close tag next ih =>
    rcases List.mem_cons.1 he with rfl | he
    · have same : sameFolded tag.name name = true := by simpa [isEndTagOf_root, named] using own
      obtain ⟨-, rfl⟩ := h.1 (by simp [same])
      exact same
    · have later := ih h.2 he
      cases next with
      | done => exact later.elim
      | comment | text | close | element => exact later
  | element tag inside next _ ih =>
    rcases List.mem_cons.1 he with rfl | he
    · simp [Fragment.root] at kind
    · exact ih h.2 he

/-- **Nothing is left open in a paired forest whose elements are void, close themselves or have an
end tag.** -/
theorem Paired.complete (h : F.Paired names) (free : NodeId)
    (closed : ∀ n ∈ (Content.ofNodes (F.fragment.nodes free)).members, n.kind = .element →
      n.isVoid = true ∨ n.isSelfClosing = true ∨ ∃ e ∈ n.body.nodes, e.isEndTagOf n = true) :
    F.Complete names := by
  induction F generalizing names free with
  | done => trivial
  | comment _ next ih | text _ next ih =>
    exact ih h _ fun n hn => closed n (List.mem_cons_of_mem _ (List.mem_append_right _ hn))
  | close tag next ih =>
    exact ⟨h.1, ih h.2 _ fun n hn => closed n (List.mem_cons_of_mem _ (List.mem_append_right _ hn))⟩
  | element tag inside next ihi ihn =>
    obtain ⟨⟨empty, paired, -⟩, rest⟩ := h
    refine ⟨?_, ihn rest _ fun n hn =>
      closed n (List.mem_cons_of_mem _ (List.mem_append_right _ hn))⟩
    by_cases shut : tag.isClosed = true
    · exact .inl ⟨shut, empty shut⟩
    · refine .inr ⟨by simpa using shut, ?_,
        ihi paired (free + tag.fragment.size) fun n hn => closed n ?_⟩
      · have here := closed (elementNode tag inside free) List.mem_cons_self rfl
        rw [isClosed_iff_elementNode tag inside free, not_or] at shut
        obtain ⟨e, he, own⟩ := (here.resolve_left shut.2).resolve_left shut.1
        rw [nodes_elementNode] at he
        rcases List.mem_cons.1 he with rfl | he
        · have kind := kind_of_isEndTagOf own
          simp [Fragment.root] at kind
        · exact paired.isClosed he own (elementName?_elementNode tag inside free)
      · -- what is inside stands below the element, behind its start tag
        exact List.mem_cons_of_mem _ (List.mem_append_left _
          (List.mem_cons_of_mem _ (List.mem_append_right _ hn)))

/-- The last of some items and those of a forest. -/
theorem getLast?_append_items (front : List Item) {i : Item}
    (h : (front ++ F.items).getLast? = some i) :
    F.items.getLast? = some i ∨ F = .done ∧ front.getLast? = some i := by
  cases hF : F.items.getLast? with
  | some j => exact .inl (by simpa [List.getLast?_append, hF] using h)
  | none =>
    obtain rfl : F = .done := by cases F <;> simp [items] at hF ⊢
    exact .inr ⟨rfl, by simpa [items] using h⟩

/-- In a forest with nothing left open only a last text is no item that ends by itself. -/
theorem Complete.sealed (h : F.Complete names) (free : NodeId)
    (last : ∀ n, (F.fragment.nodes free).getLast? = some n → n.kind ≠ .text) {i : Item}
    (hi : F.items.getLast? = some i) : i.Sealed := by
  have behind : ∀ {x : Node} {ns : List Node}, (∀ n, (x :: ns).getLast? = some n → n.kind ≠ .text) →
      ∀ n, ns.getLast? = some n → n.kind ≠ .text := fun h n hn =>
    h n (by simp [List.getLast?_cons, hn])
  induction F generalizing names free with
  | done => simp [items] at hi
  | comment inner next ih =>
    rcases getLast?_append_items [.comment inner] hi with hi | ⟨-, hi⟩
    · exact ih h _ (behind last) hi
    · obtain rfl : .comment inner = i := by simpa using hi
      trivial
  | text cs next ih =>
    rcases getLast?_append_items [.text cs] hi with hi | ⟨rfl, -⟩
    · exact ih h _ (behind last) hi
    · exact absurd rfl (last _ rfl)
  | close tag next ih =>
    rcases getLast?_append_items [.close tag] hi with hi | ⟨-, hi⟩
    · exact ih h.2 _ (behind last) hi
    · obtain rfl : .close tag = i := by simpa using hi
      trivial
  | element tag inside next ihi ihn =>
    rcases getLast?_append_items (.start tag :: inside.items) hi with hi | ⟨-, hi⟩
    · exact ihn h.2 _ (behind last) hi
    · rcases h.1 with ⟨shut, rfl⟩ | ⟨-, closed, inner⟩
      · obtain rfl : .start tag = i := by simpa [items] using hi
        simp [Item.Sealed, StartTag.hasRawText, shut]
      · rcases getLast?_append_items [.start tag] hi with hi | ⟨rfl, -⟩
        · refine ihi inner free (fun n hn => ?_) hi
          obtain ⟨close, free', -, final⟩ := closed.getLast? free
          obtain rfl := Option.some.inj (final.symm.trans hn)
          simp [Fragment.root]
        · exact closed.elim

end Forest

end Template

/-! ### Runs that are moved -/

/-- The span moved by `n` bytes. -/
def Span.shift (n : Nat) (s : Span) : Span := ⟨n + s.start, n + s.stop⟩

/-- The run with every range moved. -/
def Outline.shift (n : Nat) : Outline → Outline
  | .done => .done
  | .node kind span children next => .node kind (span.shift n) (children.shift n) (next.shift n)

/-- The node with its range and those below it moved. -/
def OutlineNode.shift (n : Nat) (o : OutlineNode) : OutlineNode :=
  ⟨o.kind, o.span.shift n, o.children.shift n⟩

theorem Outline.nodes_shift (n : Nat) (o : Outline) :
    (o.shift n).nodes = o.nodes.map (OutlineNode.shift n) := by
  induction o with
  | done => rfl
  | node kind span children next _ ih => rw [shift, nodes, ih, nodes, List.map_cons]; rfl

namespace Content

theorem outline_add (c : Content) (n start : Nat) :
    c.outline (n + start) = (c.outline start).shift n := by
  induction c generalizing start with
  | tail s => rfl
  | node gap id kind body next ihb ihn =>
    simp only [outline, Outline.shift, Span.shift, Nat.add_assoc, ← ihb, ← ihn]

theorem nodes_outline_append (ns ms : List Node) (start : Nat) :
    ((ofNodes (ns ++ ms)).outline start).nodes = ((ofNodes ns).outline start).nodes ++
      ((ofNodes ms).outline (start + (ofNodes ns).width)).nodes := by
  induction ns generalizing start with
  | nil => simp [ofNodes, outline, Outline.nodes, width]
  | cons n ns ih => simp [ofNodes, outline, Outline.nodes, width, ih, Nat.add_assoc]

end Content

namespace Template

/-- The nodes of one forest after another. -/
theorem Forest.nodes_append (F G : Forest) (free : NodeId) :
    (F.append G).fragment.nodes free =
      F.fragment.nodes free ++ G.fragment.nodes (free + F.fragment.size) := by
  induction F generalizing free with
  | done => rfl
  | comment _ _ ih | text _ _ ih | close _ _ ih =>
    simp [append, fragment, Fragment.append, ih, Nat.add_assoc]
  | element tag inside next _ ih => simp [append, fragment, Fragment.append, ih, Nat.add_assoc]

theorem Forest.children_outline (F : Forest) (identity : TreeId) :
    (F.tree identity).outline.children = (Content.ofNodes (F.fragment.nodes 0)).outline 0 := by
  simp [Tree.outline, Tree.top, Placed.span, Forest.tree, Fragment.root]

theorem Forest.size_source (F : Forest) (identity : TreeId) :
    (F.tree identity).source.utf8ByteSize = (Content.ofNodes (F.fragment.nodes 0)).width := by
  simp [Tree.source_eq, Content.width_eq, Forest.tree, Fragment.root]

/-- **The children of the document of one forest after another** are those of the first and then
those of the second, behind the text of the first. -/
theorem Forest.outline_append (F G : Forest) (i j k : TreeId) :
    ((F.append G).tree i).outline.children.nodes =
      (F.tree j).outline.children.nodes ++ (G.tree k).outline.children.nodes.map
        (OutlineNode.shift (F.tree j).source.utf8ByteSize) := by
  -- the identities of the second are others, which an outline does not show
  have same : Content.anon (.ofNodes (G.fragment.nodes (0 + F.fragment.size))) =
      Content.anon (.ofNodes (G.fragment.nodes 0)) := by
    rw [Content.anon_ofNodes, Content.anon_ofNodes, G.adds_events.steady]
  rw [children_outline, children_outline, children_outline, size_source, nodes_append,
    Content.nodes_outline_append, ← Content.outline_anon (.ofNodes (G.fragment.nodes (0 + _))),
    same, Content.outline_anon, Nat.add_comm, Content.outline_add, Outline.nodes_shift]

/-! ### Templates -/

end Template

/-- A tree in which every element is void, closes itself or has an end tag of its own, and no text
comes last below the root. -/
structure Tree.Ended (t : Tree) : Prop where
  closed : ∀ n ∈ t.nodes, n.kind = .element → n.isVoid = true ∨ n.isSelfClosing = true ∨
    ∃ e ∈ n.children, e.isEndTagOf n.toNode = true
  last : ∀ n ∈ t.top.children.getLast?, n.kind ≠ .text

instance (t : Tree) : Decidable t.Ended :=
  decidable_of_iff
    ((∀ n ∈ t.nodes, n.kind = .element → n.isVoid = true ∨ n.isSelfClosing = true ∨
      ∃ e ∈ n.children, e.isEndTagOf n.toNode = true) ∧
      ∀ n ∈ t.top.children.getLast?, n.kind ≠ .text)
    ⟨fun h => ⟨h.1, h.2⟩, fun h => ⟨h.closed, h.last⟩⟩

namespace Template

/-- A template that is ended has items that end by themselves, and leaves nothing open. -/
theorem complete_of_ended {items : List Item} {identity : TreeId}
    (h : ((plant items).tree identity).Ended) :
    (plant items).Complete [] ∧ ∀ i, items.getLast? = some i → i.Sealed := by
  have complete : (plant items).Complete [] := by
    refine (paired_plant items).complete 0 fun n hn kind => ?_
    obtain ⟨p, hp, rfl⟩ := Content.exists_mem_preorder_of_mem_members
      (c := ((plant items).tree identity).content)
      (List.mem_cons_of_mem _ (List.mem_append_left _ hn)) 0 none
    refine (h.closed p hp kind).imp_right (Or.imp_right ?_)
    rintro ⟨e, he, own⟩
    exact ⟨e.toNode, Placed.map_toNode_children p ▸ List.mem_map_of_mem he, own⟩
  refine ⟨complete, fun i hi => complete.sealed 0 (fun n hn => ?_)
    (by rwa [items_plant])⟩
  have children : ((plant items).tree identity).top.children.map (·.toNode) =
      (plant items).fragment.nodes 0 := by
    rw [Placed.map_toNode_children]
    exact Content.nodes_ofNodes _
  rw [← children, List.getLast?_map, Option.map_eq_some_iff] at hn
  obtain ⟨p, hp, rfl⟩ := hn
  exact h.last p hp

/-- **Parsing is local.**  Where a template is ended, whatever stands behind it is parsed as it is
alone, as long as offsets reach: its nodes come after those of the template, moved behind its text,
and where it is refused, the two together are refused for the same, at the place moved likewise. -/
theorem parse_append {i : TreeId} {s₁ s₂ : String} {t₁ : Tree}
    (short : (s₁ ++ s₂).utf8ByteSize < 2 ^ 32) (h : parse i s₁ = .ok t₁) (ended : t₁.Ended)
    (j k : TreeId) :
    (∀ t₂, parse j s₂ = .ok t₂ → ∃ t, parse k (s₁ ++ s₂) = .ok t ∧
      t.outline.children.nodes = t₁.outline.children.nodes ++
        t₂.outline.children.nodes.map (OutlineNode.shift s₁.utf8ByteSize)) ∧
    ∀ what offset, parse j s₂ = .error (.invalidSource what offset) →
      parse k (s₁ ++ s₂) = .error (.invalidSource what (s₁.utf8ByteSize + offset)) := by
  have text := source_parse h
  have sizes : (s₁ ++ s₂).utf8ByteSize = s₁.utf8ByteSize + s₂.utf8ByteSize :=
    String.utf8ByteSize_append
  have short₁ : s₁.utf8ByteSize < 2 ^ 32 := by omega
  have short₂ : s₂.utf8ByteSize < 2 ^ 32 := by omega
  obtain ⟨items, read, rfl⟩ := (parse_eq_ok_iff_grow short₁).1 h
  obtain ⟨complete, last⟩ := complete_of_ended ended
  have both : scan (s₁ ++ s₂).toList = (scan s₂.toList).map (items ++ ·) := by
    rw [String.toList_append]
    exact scan_append read last _
  constructor
  · intro t₂ h₂
    obtain ⟨more, read₂, rfl⟩ := (parse_eq_ok_iff_grow short₂).1 h₂
    refine ⟨_, (parse_eq_ok_iff_grow short).2 ⟨items ++ more, by rw [both, read₂]; rfl, rfl⟩, ?_⟩
    rw [plant_append complete, ← text]
    exact Forest.outline_append _ _ k i j
  · intro what offset h₂
    obtain ⟨f, read₂, same⟩ := (parse_eq_error_iff short₂).1 h₂
    obtain ⟨rfl, rfl⟩ := ParseError.invalidSource.inj same
    refine (parse_eq_error_iff short).2 ⟨f, by rw [both, read₂]; rfl, ?_⟩
    have inside : bytes f.rest ≤ s₂.utf8ByteSize := by
      obtain ⟨⟨before, split⟩, -⟩ := faultIn_of_scan read₂
      rw [← String.ofList_toList (s := s₂), utf8ByteSize_ofList, ← split, bytes_append]
      exact Nat.le_add_left _ _
    rw [sizes, Nat.add_sub_assoc inside]

/-- Raw text that is closed, before an end tag that stands alone and before a comment without an
end. -/
theorem parse_append_of_title : ∃ t₁ t₂ t : Tree,
    parse 0 "<br><title><p></Title>" = .ok t₁ ∧ t₁.Ended ∧ parse 0 "</title>b" = .ok t₂ ∧
      parse 0 ("<br><title><p></Title>" ++ "</title>b") = .ok t ∧
      t.outline.children.nodes = t₁.outline.children.nodes ++
        t₂.outline.children.nodes.map (OutlineNode.shift 22) ∧
      parse 0 ("<br><title><p></Title>" ++ "b<!--") = .error (.invalidSource .comment 23) := by
  have evaluated : ((parse 0 "<br><title><p></Title>").toOption.any fun t =>
      decide t.Ended) = true := by decide +kernel
  have later : (parse 0 "</title>b").isOk = true := by decide +kernel
  have refused : parse 0 "b<!--" = .error (.invalidSource .comment 1) :=
    (parse_eq_error_iff (by decide)).2
      ⟨⟨.comment, "<!--".toList⟩, by decide +kernel, by decide +kernel⟩
  obtain ⟨t₂, h₂⟩ := exists_parse_of_isOk later
  cases h : parse 0 "<br><title><p></Title>" with
  | error e => simp [h, Except.toOption] at evaluated
  | ok t₁ =>
    have ended : t₁.Ended := by simpa [h, Except.toOption] using evaluated
    obtain ⟨t, whole, nodes⟩ := (parse_append (by decide) h ended 0 0).1 t₂ h₂
    exact ⟨t₁, t₂, t, rfl, ended, h₂, whole, nodes,
      (parse_append (by decide) h ended 0 0).2 _ _ refused⟩

end Template

end SyntaxLint
