import SyntaxLint.Proofs.Tree.Loading
import SyntaxLint.Proofs.Tree.Navigation
import SyntaxLint.Proofs.Tree.Stored
import SyntaxLint.Tree.Links

/-!
# Proofs — Trees — listings

A listing is written by other rules than an outline: a token without children has its text, and
every other node its children, of which there may be none.  It is read as an outline all the same,
since a reader of outlines passes over texts and takes children that are left out for none.  So both
say the same of a node, and the text of a token is found in either: as a value, or in the source at
the range.

* `Json.Within`: the values that stand somewhere in a value.
* `Placed.listing_eq`, `Placed.within_listing_iff`: the objects of a listing.
* `Placed.node?_listing`: a listing that is read.
* `Tree.listed_of_reachable`: listings and outlines of all nodes.
-/

namespace SyntaxLint

/-- A value that stands somewhere in a value, or is all of it. -/
inductive Json.Within : Json → Json → Prop where
  | refl (v : Json) : Within v v
  | item {v w : Json} {items : List Json} (mem : w ∈ items) (within : Within v w) :
      Within v (.array items)
  | member {v w : Json} {key : String} {members : List (String × Json)}
      (mem : (key, w) ∈ members) (within : Within v w) : Within v (.object members)

/-- An object in an array stands in one of the items. -/
theorem Json.Within.exists_mem {members : List (String × Json)} {items : List Json}
    (h : Within (.object members) (.array items)) : ∃ v ∈ items, Within (.object members) v := by
  cases h with
  | item mem within => exact ⟨_, mem, within⟩

variable {c : Content} {n m : Placed} {t : Tree} {a : Arena} {start b : Nat}
  {parent : Option NodeId} {members : List (String × Json)} {v : Json}

/-! ### The objects of a listing -/

/-- The nodes of a run are listed one by one. -/
theorem Content.listing_eq (c : Content) (start : Nat) (parent : Option NodeId) :
    c.listing start = (c.siblings start parent).map Placed.listing := by
  induction c generalizing start with
  | tail s => rfl
  | node gap id kind body next _ ihn =>
    have gapless : start + gap.utf8ByteSize + "".utf8ByteSize = start + gap.utf8ByteSize := rfl
    rw [siblings, List.map_cons, ← ihn, listing, Placed.listing, listing, gapless]

theorem Placed.isEmpty_children_slot (n : Placed) : n.slot.children.isEmpty = n.isLeaf := by
  rw [Bool.eq_iff_iff, List.isEmpty_iff, children_slot_eq_nil_iff]

/-- **What is listed of a node** is what is written of its slot. -/
theorem Placed.listing_eq (n : Placed) :
    n.listing = .object (n.slot.fields n.text (n.children.map listing)) := by
  have gapless : n.start + "".utf8ByteSize = n.start := rfl
  have below : n.children.map listing = n.body.listing n.start :=
    (n.body.listing_eq n.start (some n.id)).symm
  rw [listing, Content.listing, gapless, Slot.fields, isEmpty_children_slot, below]
  rfl

/-- An object in what is written of a slot is all of it, or stands in what is written of a child. -/
theorem Slot.eq_or_exists_of_within {s : Slot} {text : String} {below : List Json}
    (h : Json.Within (.object members) (.object (s.fields text below))) :
    s.fields text below = members ∨ ∃ w ∈ below, Json.Within (.object members) w := by
  cases h with
  | refl => exact .inl rfl
  | @member w key _ mem within =>
    simp only [fields, List.mem_cons, List.not_mem_nil, or_false, Prod.mk.injEq] at mem
    rcases mem with ⟨-, rfl⟩ | ⟨-, rfl⟩ | mem
    · cases within
    · obtain ⟨w, mem, within⟩ := within.exists_mem
      simp only [List.mem_cons, List.not_mem_nil, or_false] at mem
      rcases mem with rfl | rfl <;> cases within
    · split at mem
      · obtain ⟨-, rfl⟩ := Prod.mk.inj mem
        cases within
      · obtain ⟨-, rfl⟩ := Prod.mk.inj mem
        exact .inr within.exists_mem

/-- What stands in the listing of a child stands in that of the node. -/
theorem Placed.within_of_mem_children (hm : m ∈ n.children) (h : Json.Within v m.listing) :
    Json.Within v n.listing := by
  have inner : n.isLeaf ≠ true := fun leaf =>
    absurd hm (children_eq_nil_iff.2 leaf ▸ List.not_mem_nil)
  have below : ("children", .array (n.children.map listing)) ∈
      n.slot.fields n.text (n.children.map listing) := by
    simp [Slot.fields, isEmpty_children_slot, inner]
  rw [listing_eq]
  exact .member below (.item (List.mem_map_of_mem hm) h)

namespace Content

/-- An object in a listing is the listing of a node. -/
theorem exists_of_within (hv : v ∈ c.listing start) (h : Json.Within (.object members) v)
    (parent : Option NodeId) : ∃ m ∈ c.preorder start parent, m.listing = .object members := by
  induction c generalizing start parent v with
  | tail s => exact absurd hv List.not_mem_nil
  | node gap id kind body next ihb ihn =>
    rw [listing_eq _ _ parent, siblings, List.map_cons, ← listing_eq] at hv
    rcases List.mem_cons.1 hv with rfl | beside
    · rw [Placed.listing_eq] at h
      rcases Slot.eq_or_exists_of_within h with here | ⟨w, hw, within⟩
      · exact ⟨_, List.mem_append_left _ List.mem_cons_self, here ▸ Placed.listing_eq _⟩
      · rw [Placed.children, ← listing_eq] at hw
        obtain ⟨m, hm, eq⟩ := ihb hw within (some id)
        exact ⟨m, List.mem_append_left _ (List.mem_cons_of_mem _ hm), eq⟩
    · obtain ⟨m, hm, eq⟩ := ihn beside h parent
      exact ⟨m, List.mem_append_right _ hm, eq⟩

/-- The listing of a node stands in that of the run. -/
theorem exists_within (hm : m ∈ c.preorder start parent) :
    ∃ v ∈ c.listing start, Json.Within m.listing v := by
  induction c generalizing start parent with
  | tail s => exact absurd hm List.not_mem_nil
  | node gap id kind body next ihb ihn =>
    rw [listing_eq _ _ parent, siblings, List.map_cons, ← listing_eq]
    rcases List.mem_append.1 hm with hm | hm
    · refine ⟨_, List.mem_cons_self, ?_⟩
      rcases List.mem_cons.1 hm with rfl | hm
      · exact .refl _
      · obtain ⟨v, hv, within⟩ := ihb hm
        rw [listing_eq _ _ (some id)] at hv
        obtain ⟨p, hp, rfl⟩ := List.mem_map.1 hv
        exact Placed.within_of_mem_children hp within
    · obtain ⟨v, hv, within⟩ := ihn hm
      exact ⟨v, List.mem_cons_of_mem _ hv, within⟩

end Content

/-- **The objects of a listing** are those of the node and of the nodes below it. -/
theorem Placed.within_listing_iff :
    Json.Within (.object members) n.listing ↔ ∃ m ∈ n.preorder, m.listing = .object members := by
  have alone : n.alone.listing n.start = [n.listing] := by
    rw [n.alone.listing_eq n.start n.parent]
    rfl
  rw [← n.preorder_alone]
  constructor
  · intro h
    exact Content.exists_of_within (alone ▸ List.mem_singleton_self _) h n.parent
  · rintro ⟨m, hm, eq⟩
    obtain ⟨v, hv, within⟩ := Content.exists_within hm
    rw [alone, List.mem_singleton] at hv
    rwa [← eq, ← hv]

/-! ### Slots -/

/-- The listing of siblings whose slots are those of a run, over a source with its text. -/
theorem Arena.listings_eq {fuel : Nat} (slots : ∀ n ∈ c.preorder start parent,
      a.slot? n.id = some n.slot ∧ n.text = a.textAt n.span) (enough : c.size ≤ fuel) :
    a.listings fuel ((c.siblings start parent).map (·.id)) = c.listing start := by
  induction c generalizing start parent fuel with
  | tail s => cases fuel <;> rfl
  | node gap id kind body next ihb ihn =>
    rw [Content.preorder, List.cons_append, List.forall_mem_cons, List.forall_mem_append] at slots
    obtain ⟨⟨here, text⟩, down, beside⟩ := slots
    rw [Content.size] at enough
    obtain ⟨rest, rfl⟩ : ∃ rest, fuel = rest + 1 := ⟨fuel - 1, by omega⟩
    have below : a.listings rest _ = _ := ihb down (by omega)
    have behind : a.listings rest _ = _ := ihn beside (by omega)
    rw [Content.listing_eq _ _ parent, Content.siblings, List.map_cons, List.map_cons, listings,
      slot_of_slot? here, behind, Placed.listing_eq, text, ← Content.listing_eq, Placed.children,
      ← Content.listing_eq, ← below]
    rfl

namespace Arena.Holds

variable (held : a.Holds t) (ht : t.Numbered) (hn : n ∈ t.nodes)
include held ht hn

theorem textAt_span : n.text = a.textAt n.span := by
  rw [textAt, held.source, ht.text_eq_slice hn]

theorem size_body_le : n.body.size ≤ a.slots.size := by
  have lists : a.Lists n.descendants := by
    refine ⟨?_, fun m hm => ⟨m.slot, held.slots m ?_, rfl⟩⟩
    · exact Content.nodup_preorder (List.nodup_cons.1 (Content.nodup_of_mem ht.nodup hn)).2 _ _
    · exact Tree.mem_nodes_of_mem_preorder hn (List.mem_cons_of_mem _ hm)
  have length := lists.length_le
  rwa [← List.length_map (·.id), Placed.descendants, Content.ids_preorder,
    Content.length_ids] at length

/-- **The listing of a node** is that of its slot and of the slots below. -/
theorem listing_eq : a.listing n.id = n.listing := by
  have below : a.listings a.slots.size ((n.body.siblings n.start (some n.id)).map (·.id)) =
      n.body.listing n.start := by
    refine listings_eq (fun m hm => ?_) (held.size_body_le ht hn)
    have there := Tree.mem_nodes_of_mem_preorder hn (List.mem_cons_of_mem _ hm)
    exact ⟨held.slots m there, held.textAt_span ht there⟩
  rw [listing, slot_of_slot? (held.slots n hn), Placed.listing_eq, held.textAt_span ht hn,
    Placed.children, ← Content.listing_eq, ← below]
  rfl

/-- **The outline of a node** is that of its slot and of the slots below. -/
theorem outline_of_mem : a.outline n.id = n.outline := by
  have shows : a.Shows (some n.id) (n.children.map (·.id)) (n.body.outline n.start) :=
    shows_content fun m hm => held.slots m
      (Tree.mem_nodes_of_mem_preorder hn (List.mem_cons_of_mem _ hm))
  have enough : (n.body.outline n.start).postorder.length ≤ a.slots.size := by
    have size := held.size_body_le ht hn
    have perm := (Content.postorder_perm_preorder n.body n.start (some n.id)).length_eq
    rw [← Content.map_outline_postorder n.body n.start (some n.id), List.length_map, perm,
      ← List.length_map (·.id), Content.ids_preorder, Content.length_ids]
    exact size
  rw [outline, slot_of_slot? (held.slots n hn)]
  exact congrArg (OutlineNode.mk _ _) (shows.outlines_eq enough)

end Arena.Holds

/-! ### Reading a listing -/

theorem Slot.fields?_fields (s : Slot) (text : String) (below : List Json) :
    (Json.object (s.fields text below)).fields? ["type", "range", "children"] =
      some ⟨false, [some s.kind.toJson, some s.span.toPair,
        if s.kind.isToken && s.children.isEmpty then none else some (.array below)]⟩ := by
  rw [fields]
  split <;> rfl

/-- A node is read with its children.  Its range takes a level, and each of them two. -/
theorem Placed.node?_listing_of_children {nodes : List OutlineNode} {d : Nat}
    (words : n.span.Words) (below : ∀ b, (n.children.map listing).mapM (Outline.node? b) =
      if 2 * d ≤ b then some nodes else none) (b : Nat) :
    Outline.node? b n.listing =
      if 2 * (d + 1) ≤ b then some ⟨n.kind, n.span, Outline.ofNodes nodes⟩ else none := by
  cases b with
  | zero => rfl
  | succ b =>
    rw [listing_eq, Outline.node?, Slot.fields?_fields]
    simp only [Option.bind_eq_bind, Option.bind_some, Json.required, Outline.ofJson?_toJson]
    cases b with
    | zero => rfl
    | succ b =>
      have children : Json.defaulted [] (Outline.nodes? (b + 1))
          (if n.slot.kind.isToken && n.slot.children.isEmpty then none
            else some (.array (n.children.map listing))) =
          if 2 * d ≤ b then some nodes else none := by
        rw [← below]
        split
        case isTrue token =>
          rw [isEmpty_children_slot, Bool.and_eq_true] at token
          rw [children_eq_nil_iff.2 token.2]
          rfl
        case isFalse => rfl
      have deeper : 2 * (d + 1) ≤ b + 1 + 1 ↔ 2 * d ≤ b := by omega
      rw [children, show n.slot.span = n.span from rfl, Outline.pair?_toPair words,
        Option.bind_some]
      simp only [deeper]
      split <;> rfl

theorem Content.mapM_node?_listing (words : ∀ m ∈ c.preorder start parent, m.span.Words) (b : Nat) :
    (c.listing start).mapM (Outline.node? b) =
      if 2 * c.depth ≤ b then some (c.outline start).nodes else none := by
  induction c generalizing start parent b with
  | tail s => rfl
  | node gap id kind body next ihb ihn =>
    rw [preorder, List.cons_append, List.forall_mem_cons, List.forall_mem_append] at words
    obtain ⟨here, down, beside⟩ := words
    have first := Placed.node?_listing_of_children here (d := body.depth) (fun b => by
      rw [Placed.children, ← listing_eq]
      exact ihb down b) b
    have both : 2 * max (body.depth + 1) next.depth ≤ b ↔
        2 * (body.depth + 1) ≤ b ∧ 2 * next.depth ≤ b := by omega
    rw [listing_eq _ _ parent, siblings, List.map_cons, ← listing_eq, List.mapM_cons, first,
      ihn beside, depth]
    simp only [both]
    by_cases inner : 2 * (body.depth + 1) ≤ b <;> by_cases outer : 2 * next.depth ≤ b <;>
      simp [inner, outer, outline, Outline.nodes, Placed.span]

/-- **A listing is read as the outline of the node**, where the reader goes deep enough. -/
theorem Placed.node?_listing (words : ∀ m ∈ n.preorder, m.span.Words) (b : Nat) :
    Outline.node? b n.listing = if 2 * n.outline.depth ≤ b then some n.outline else none := by
  obtain ⟨here, down⟩ := List.forall_mem_cons.1 words
  have depth : n.outline.depth = n.body.depth + 1 := by
    rw [OutlineNode.depth, outline, Content.depth_outline]
  rw [depth, outline, ← (n.body.outline n.start).ofNodes_nodes]
  refine node?_listing_of_children here (fun b => ?_) b
  rw [children, ← Content.listing_eq, Content.mapM_node?_listing down]

/-- A listing is written without doubles. -/
theorem Content.plain_listing (words : ∀ m ∈ c.preorder start parent, m.span.Words) :
    Json.ArePlain (c.listing start) := by
  induction c generalizing start parent with
  | tail s => trivial
  | node gap id kind body next ihb ihn =>
    rw [preorder, List.cons_append, List.forall_mem_cons, List.forall_mem_append] at words
    obtain ⟨here, down, beside⟩ := words
    rw [listing]
    refine ⟨⟨trivial, here.plain_toPair, ?_⟩, ihn beside⟩
    dsimp only
    split
    · exact ⟨trivial, trivial⟩
    · exact ⟨ihb down, trivial⟩

/-! ### Listings and outlines -/

/-- A node is shown alike in a listing and in an outline. -/
structure Placed.Listed (t : Tree) (n : Placed) : Prop where
  /-- the listing is read as the outline, by a reader that goes deep enough -/
  read : ∀ b, Outline.node? b n.listing = if 2 * n.outline.depth ≤ b then some n.outline else none
  compact : Json.read n.listing.compact = some n.listing
  pretty : Json.read (n.listing.pretty ++ "\n") = some n.listing
  /-- the objects are those of the nodes there are, with texts out of the source -/
  objects : ∀ members, Json.Within (.object members) n.listing ↔ ∃ m ∈ n.preorder, members =
    m.slot.fields (Text.slice t.source m.span.start m.span.stop) (m.children.map Placed.listing)
  /-- a value is the text of the source at the range beside it -/
  values : ∀ members v, Json.Within (.object members) n.listing → ("value", v) ∈ members →
    ∃ s : Span, ("range", s.toPair) ∈ members ∧ v = .string (Text.slice t.source s.start s.stop)
  /-- the text of a token without children is found in both -/
  tokens : ∀ m ∈ n.preorder, m.kind.isToken = true → m.isLeaf = true →
    Json.Within (.object [("type", m.kind.toJson), ("range", m.span.toPair),
      ("value", .string m.text)]) n.listing ∧
    ⟨m.kind, m.span, .done⟩ ∈ n.outline.postorder ∧
    m.text = Text.slice t.source m.span.start m.span.stop
  /-- both are made of the slots that hold the tree, dead ones among them or not -/
  slots : ∀ a : Arena, a.Holds t → a.listing n.id = n.listing ∧ a.outline n.id = n.outline

theorem Placed.mem_postorder_outline (hm : m ∈ n.preorder) :
    m.outline ∈ n.outline.postorder := by
  have alone : n.outline.postorder = (n.alone.outline n.start).postorder := by
    have gapless : n.start + "".utf8ByteSize = n.start := rfl
    rw [Placed.alone, Content.outline, Outline.postorder, gapless]
    rfl
  rw [alone, ← Content.map_outline_postorder n.alone n.start n.parent]
  refine List.mem_map_of_mem ((Content.postorder_perm_preorder _ _ _).mem_iff.2 ?_)
  rwa [n.preorder_alone]

namespace Tree

theorem Numbered.listed (h : t.Numbered) (short : t.top.span.stop < 2 ^ 32) (hn : n ∈ t.nodes) :
    n.Listed t := by
  have there : ∀ {m}, m ∈ n.preorder → m ∈ t.nodes := fun hm => mem_nodes_of_mem_preorder hn hm
  have words : ∀ m ∈ n.preorder, m.span.Words := fun m hm =>
    words_of_mem_nodes short (there hm)
  have plain : n.listing.Plain := by
    rw [← n.preorder_alone] at words
    have plain := Content.plain_listing words
    rw [Content.listing_eq _ _ n.parent] at plain
    exact plain.1
  have objects : ∀ members, Json.Within (.object members) n.listing ↔ ∃ m ∈ n.preorder, members =
      m.slot.fields (Text.slice t.source m.span.start m.span.stop)
        (m.children.map Placed.listing) := fun members => by
    rw [Placed.within_listing_iff]
    refine exists_congr fun m => and_congr_right fun hm => ?_
    rw [Placed.listing_eq, ← h.text_eq_slice (there hm), Json.object.injEq, eq_comm]
  constructor
  case read => exact Placed.node?_listing words
  case compact => exact Json.read_compact plain
  case pretty => exact Json.read_pretty plain
  case objects => exact objects
  case values =>
    intro members v within value
    obtain ⟨m, hm, rfl⟩ := (objects members).1 within
    refine ⟨m.span, by simp [Slot.fields, Placed.slot], ?_⟩
    simp only [Slot.fields, List.mem_cons, Prod.mk.injEq, List.not_mem_nil, or_false,
      String.reduceEq, false_and, false_or] at value
    split at value
    · exact (Prod.mk.inj value).2
    · exact absurd (Prod.mk.inj value).1 (by decide)
  case tokens =>
    intro m hm token leaf
    refine ⟨?_, ?_, h.text_eq_slice (there hm)⟩
    · rw [Placed.within_listing_iff]
      refine ⟨m, hm, ?_⟩
      rw [Placed.listing_eq, Slot.fields, Placed.isEmpty_children_slot, leaf]
      simp [Placed.slot, token]
    · have none : m.body.outline m.start = .done := by
        obtain ⟨⟨id, kind, body⟩, start, parent⟩ := m
        cases body with
        | tail s => rfl
        | node => cases leaf
      exact none ▸ Placed.mem_postorder_outline hm
  case slots => exact fun a held => ⟨held.listing_eq h hn, held.outline_of_mem h hn⟩

/-- **Listings and outlines agree**, whatever became of a tree whose offsets fit 32 bits: for every
node there is, and for the tree. -/
theorem listed_of_reachable (h : t.Reachable) (short : t.top.span.stop < 2 ^ 32) :
    (∀ n ∈ t.nodes, n.Listed t) ∧
      ∀ b, Outline.node? b t.listing = if 2 * t.depth ≤ b then some t.outline else none := by
  have listed : ∀ n ∈ t.nodes, n.Listed t := fun n hn => h.numbered.listed short hn
  refine ⟨listed, fun b => ?_⟩
  rw [← t.depth_outline]
  exact (listed t.top top_mem_nodes).read b

/-- A document of an element that is empty, of a token that is not a leaf, and of a token that was
replaced. -/
theorem listed_of_replaced : ∃ t : Tree,
    ofEvents 0 [.start .document, .start .element, .finish, .start .text, .token .text "é\n",
      .finish, .token .text "ab", .finish] = .ok t ∧
    let u := (t.tryEdit (.replace 3 "\"x")).tree
    u.Reachable ∧ u.top.span.stop < 2 ^ 32 ∧
    u.listing = .object [("type", .string "Document"), ("range", .array [.nat 0, .nat 5]),
      ("children", .array [
        .object [("type", .string "Element"), ("range", .array [.nat 0, .nat 0]),
          ("children", .array [])],
        .object [("type", .string "Text"), ("range", .array [.nat 0, .nat 3]),
          ("children", .array [.object [("type", .string "Text"),
            ("range", .array [.nat 0, .nat 3]), ("value", .string "é\n")]])],
        .object [("type", .string "Text"), ("range", .array [.nat 3, .nat 5]),
          ("value", .string "\"x")]])] ∧
    (∀ n ∈ u.nodes, n.Listed u) ∧
    Outline.node? 6 u.listing = some u.outline ∧ Outline.node? 5 u.listing = none := by
  have built : ofEvents 0 [.start .document, .start .element, .finish, .start .text,
      .token .text "é\n", .finish, .token .text "ab", .finish] =
      .ok ⟨0, "", ⟨4, .document, .node "" 0 .element (.tail "") (.node "" 2 .text
        (.node "" 1 .text (.tail "é\n") (.tail "")) (.node "" 3 .text (.tail "ab")
          (.tail "")))⟩, ""⟩ := rfl
  refine ⟨_, built, ?_⟩
  intro u
  have reachable : u.Reachable := .edit (.built built) _
  have short : u.top.span.stop < 2 ^ 32 := by decide +kernel
  obtain ⟨listed, read⟩ := listed_of_reachable reachable short
  exact ⟨reachable, short, rfl, listed, read 6, read 5⟩

end Tree

end SyntaxLint
