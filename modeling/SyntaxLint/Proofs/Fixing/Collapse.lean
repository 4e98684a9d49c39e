import SyntaxLint.Proofs.Fixing.Reachable
import SyntaxLint.Proofs.Fixing.Spaces
import SyntaxLint.Proofs.Tree.Marks

/-!
# Proofs — Fixing — white space that collapses

The formatter chooses what it changes by the ranges there are before it changes anything, and makes
one change after the other while the ranges move; what it cannot change it leaves.  So it makes one
space of each leaf of white space on one line in its range, and changes nothing else.  Handed the
range that a node has by then it finds nothing to change: no leaf has come into that range.  A leaf
without a text makes the source longer when it becomes a space, so there must be room for these.

* `Tree.Collapses`, `Tree.hollow`: the leaves that become one space, and those without a text.
* `Formatter.HasRoom`: no leaf is left because the source would become too long.
* `Formatter.tree_foldl_toSpace`: making one space of one node after the other.
* `Formatter.tree_whitespace`: what the formatter makes of a tree.
* `Formatter.collapsed_of_reachable`: of every tree there is, over any range, and twice.
-/

namespace SyntaxLint

/-- A leaf of white space without a line break that lies in a range, cut down to the source. -/
structure Tree.Collapses (t : Tree) (range : Span) (n : Placed) : Prop where
  leaf : n.isLeaf = true
  blank : n.kind = .whitespace
  inside : (range.clamp t.source.utf8ByteSize).encloses n.span = true
  oneLine : '\n' ∉ n.text.toList ∧ '\r' ∉ n.text.toList

instance (t : Tree) (range : Span) (n : Placed) : Decidable (t.Collapses range n) :=
  decidable_of_iff
    (n.isLeaf = true ∧ n.kind = .whitespace ∧
      (range.clamp t.source.utf8ByteSize).encloses n.span = true ∧
      '\n' ∉ n.text.toList ∧ '\r' ∉ n.text.toList)
    ⟨fun h => ⟨h.1, h.2.1, h.2.2.1, h.2.2.2⟩, fun h => ⟨h.leaf, h.blank, h.inside, h.oneLine⟩⟩

/-- The leaves of a tree that become one space and are not. -/
def Tree.collapsing (t : Tree) (range : Span) : List NodeId :=
  (t.nodes.filter fun n => t.Collapses range n ∧ n.text ≠ " ").map (·.id)

/-- White space without a text. -/
def Node.isHollow (n : Node) : Bool :=
  n.kind == .whitespace && n.body.isLeaf && n.body.text == ""

/-- How many leaves of white space have no text. -/
def Tree.hollow (t : Tree) : Nat := t.nodes.countP fun n => n.isHollow

/-- One space for the leaves of the given identities. -/
def Node.spaceAt (ids : List NodeId) (n : Node) : Option String :=
  if n.id ∈ ids ∧ n.body.isLeaf = true then some " " else none

variable {t : Tree} {n : Placed} {range : Span} {ids : List NodeId}

theorem Node.isLeaf_of_spaceAt {n : Node} (h : (n.spaceAt ids).isSome) : n.body.isLeaf = true := by
  by_contra composite
  simp [spaceAt, composite] at h

theorem full_spaceAt (ids : List NodeId) : Full (Node.spaceAt ids) := by
  intro n x h
  obtain ⟨-, rfl⟩ : _ ∧ " " = x := by simpa [Node.spaceAt] using h
  decide

theorem Tree.Numbered.mem_collapsing_iff (ht : t.Numbered) (hn : n ∈ t.nodes) :
    n.id ∈ t.collapsing range ↔ t.Collapses range n ∧ n.text ≠ " " := by
  rw [collapsing, List.mem_map]
  constructor
  · rintro ⟨m, hm, same⟩
    obtain ⟨hm, collapses⟩ := List.mem_filter.1 hm
    rw [ht.eq_of_id_eq hm hn same] at collapses
    simpa using collapses
  · exact fun collapses => ⟨n, List.mem_filter.2 ⟨hn, by simpa using collapses⟩, rfl⟩

namespace Formatter

/-- One space is made of a leaf, and nothing of what is no leaf or not alive. -/
theorem tree_toSpace_eq (ht : t.Numbered) (id : NodeId)
    (room : (t.retext (Node.spaceAt [id])).source.utf8ByteSize < 2 ^ 32)
    (refused : List TreeError) :
    (toSpace ⟨t, refused⟩ id).tree = t.retext (Node.spaceAt [id]) := by
  cases found : t.node? id with
  | none =>
    have made : (toSpace ⟨t, refused⟩ id).tree = t := by
      simp [toSpace, Tree.replaceText, Tree.live, found, bind, Except.bind]
    rw [made]
    refine (Tree.retext_of_none fun n hn => if_neg ?_).symm
    rintro ⟨same, -⟩
    obtain ⟨p, hp, rfl⟩ := Tree.exists_placed hn
    rw [← List.mem_singleton.1 same, ht.node?_id hp] at found
    cases found
  | some p =>
    obtain ⟨hp, rfl⟩ := ht.node?_eq_some_iff.1 found
    by_cases leaf : p.isLeaf = true
    · have same : t.retext (Node.spaceAt [p.id]) = t.retext (Node.textAt p.id " ") := by
        refine Tree.retext_congr fun n hn => ?_
        by_cases same : n.id = p.id
        · have leaf' := ht.isLeaf_of_textAt hp leaf " " n hn (by simp [Node.textAt, same])
          simp [Node.textAt, Node.spaceAt, same, leaf']
        · simp [Node.textAt, Node.spaceAt, same]
      rw [same, ht.length_textAt hp] at room
      simp only [toSpace, ht.replaceText_leaf hp leaf room, same]
    · have made : (toSpace ⟨t, refused⟩ p.id).tree = t := by
        simp [toSpace, Tree.replaceText, Tree.live, found, leaf, bind, Except.bind, throw,
          throwThe, MonadExceptOf.throw]
      rw [made]
      refine (Tree.retext_of_none fun n hn => if_neg ?_).symm
      rintro ⟨same, leaf'⟩
      rw [ht.eq_of_mem_members hn (Tree.toNode_mem hp) (List.mem_singleton.1 same)] at leaf'
      exact leaf leaf'

/-- **One space is made of each of some nodes**, but of those that are no leaves or not alive. -/
theorem tree_foldl_toSpace (ht : t.Numbered) (ids : List NodeId)
    (room : ∀ some ⊆ ids, (t.retext (Node.spaceAt some)).source.utf8ByteSize < 2 ^ 32)
    (refused : List TreeError) :
    (ids.foldl toSpace ⟨t, refused⟩).tree = t.retext (Node.spaceAt ids) := by
  -- from the end of the list: all but the last node have become spaces when the last does
  induction ids using List.reverseRecOn with
  | nil => exact (Tree.retext_of_none fun n _ => by simp [Node.spaceAt]).symm
  | append_singleton ids id ih =>
    have made := ih fun some h => room some (List.subset_append_of_subset_left _ h)
    have last : (t.retext (Node.spaceAt ids)).retext (Node.spaceAt [id]) =
        t.retext (Node.spaceAt (ids ++ [id])) := by
      rw [Tree.retext_retext]
      refine Tree.retext_congr fun n _ => ?_
      have leaf := Node.isLeaf_retext (h := Node.spaceAt ids) (n := n) Node.isLeaf_of_spaceAt
      simp only [Node.spaceAt, Node.id_retext, leaf, List.mem_append, List.mem_singleton]
      by_cases here : n.id = id <;> by_cases leaf : n.body.isLeaf = true <;> simp [here, leaf]
    rw [List.foldl_append, List.foldl_cons, List.foldl_nil, ← last, ← made]
    refine tree_toSpace_eq (made ▸ ht.retext _) id ?_ _
    rw [made, last]
    exact room _ (List.Subset.refl _)

/-- The source stays short enough for offsets whichever of the nodes that are chosen in a range
become one space. -/
def HasRoom (t : Tree) (range : Span) : Prop :=
  ∀ ids ⊆ targets t range, (t.retext (Node.spaceAt ids)).source.utf8ByteSize < 2 ^ 32

theorem HasRoom.short (room : HasRoom t range) : t.source.utf8ByteSize < 2 ^ 32 := by
  have none := room [] (List.nil_subset _)
  rwa [Tree.retext_of_none fun n _ => by simp [Node.spaceAt]] at none

/-- **There is room where there is for one byte more for each leaf without a text**: white space
that has a text becomes no longer. -/
theorem hasRoom (ht : t.Numbered) (room : t.source.utf8ByteSize + t.hollow < 2 ^ 32)
    (range : Span) : HasRoom t range := by
  intro ids chosen
  have bound : ∀ n ∈ t.content.members, ∀ x, n.spaceAt ids = some x →
      x.utf8ByteSize ≤ n.body.width + n.isHollow.toNat := by
    intro n hn x given
    obtain ⟨⟨mem, leaf⟩, rfl⟩ : (n.id ∈ ids ∧ n.body.isLeaf = true) ∧ " " = x := by
      simpa [Node.spaceAt] using given
    obtain ⟨p, hp, same⟩ := List.mem_map.1 (chosen mem)
    obtain ⟨hp, ragged⟩ := List.mem_filter.1 hp
    obtain rfl := ht.eq_of_mem_members hn (Tree.toNode_mem hp) same.symm
    have kind : p.kind = .whitespace := by
      simp only [isRagged, Bool.and_eq_true, beq_iff_eq] at ragged
      exact ragged.1.1.1
    by_cases full : p.body.text = ""
    · simp [Node.isHollow, kind, leaf, full, show " ".utf8ByteSize = 1 from rfl]
    · have wide := Content.width_pos_of_text_ne full
      rw [show " ".utf8ByteSize = 1 from rfl]
      omega
  refine Nat.lt_of_le_of_lt (Tree.length_retext_le bound) ?_
  rwa [← Content.map_toNode_preorder t.content 0 none, List.countP_map]

/-- A leaf is chosen if it collapses and is not one space. -/
theorem mem_targets_iff (ht : t.Numbered) (short : t.source.utf8ByteSize < 2 ^ 32)
    (hn : n ∈ t.nodes) (leaf : n.isLeaf = true) :
    n.id ∈ targets t range ↔ n.id ∈ t.collapsing range := by
  have ragged : isRagged (range.clamp t.source.utf8ByteSize) n = true ↔
      t.Collapses range n ∧ n.text ≠ " " := by
    have collapses : t.Collapses range n ↔ n.kind = .whitespace ∧
        (range.clamp t.source.utf8ByteSize).encloses n.span = true ∧
        '\n' ∉ n.text.toList ∧ '\r' ∉ n.text.toList :=
      ⟨fun h => ⟨h.blank, h.inside, h.oneLine⟩, fun h => ⟨leaf, h.1, h.2.1, h.2.2⟩⟩
    rw [collapses]
    have oneLine : (n.text.toList.all fun c => c != '\n' && c != '\r') = true ↔
        '\n' ∉ n.text.toList ∧ '\r' ∉ n.text.toList := by
      simp only [List.all_eq_true, Bool.and_eq_true, bne_iff_ne]
      exact ⟨fun h => ⟨fun mem => (h _ mem).1 rfl, fun mem => (h _ mem).2 rfl⟩,
        fun h c hc => ⟨fun e => h.1 (e ▸ hc), fun e => h.2 (e ▸ hc)⟩⟩
    simp only [isRagged, Bool.and_eq_true, beq_iff_eq, bne_iff_ne, oneLine]
    constructor
    · rintro ⟨⟨⟨kind, inside⟩, text⟩, line⟩
      exact ⟨⟨kind, inside, line⟩, text⟩
    · rintro ⟨⟨kind, inside, line⟩, text⟩
      exact ⟨⟨⟨kind, inside⟩, text⟩, line⟩
  rw [ht.mem_collapsing_iff hn, ← ragged, targets, Span.word_of_lt short, List.mem_map]
  constructor
  · rintro ⟨m, hm, same⟩
    obtain ⟨hm, ragged⟩ := List.mem_filter.1 hm
    rwa [← ht.eq_of_id_eq hm hn same]
  · exact fun ragged => ⟨n, List.mem_filter.2 ⟨hn, ragged⟩, rfl⟩

/-- **The formatter makes one space of each leaf that collapses, and changes nothing else.** -/
theorem tree_whitespace (ht : t.Numbered) (room : HasRoom t range) :
    (whitespace t range).tree = t.retext (Node.spaceAt (t.collapsing range)) := by
  rw [whitespace, tree_foldl_toSpace ht _ room]
  refine Tree.retext_congr fun n hn => ?_
  obtain ⟨p, hp, rfl⟩ := Tree.exists_placed hn
  by_cases leaf : p.isLeaf = true
  · simp only [Node.spaceAt, mem_targets_iff ht room.short hp leaf]
  · rw [Node.spaceAt, Node.spaceAt, if_neg fun h => leaf h.2, if_neg fun h => leaf h.2]

/-- **No leaf comes into the range of a node** when white space in it collapses. -/
theorem spaceAt_collapsing_whitespace (ht : t.Numbered) (room : HasRoom t n.span)
    (hn : n ∈ t.nodes) {m : Placed} (hm : (whitespace t n.span).tree.node? n.id = some m) :
    ∀ x ∈ (whitespace t n.span).tree.content.members,
      x.spaceAt ((whitespace t n.span).tree.collapsing m.span) = none := by
  set ids := t.collapsing n.span with hids
  have leaves : ∀ x ∈ t.content.members, (x.spaceAt ids).isSome → x.body.isLeaf :=
    fun x _ => Node.isLeaf_of_spaceAt
  have hu : (t.retext (Node.spaceAt ids)).Numbered := ht.retext _
  rw [tree_whitespace ht room, ← hids] at hm ⊢
  obtain ⟨hm, same⟩ := hu.node?_eq_some_iff.1 hm
  refine fun x hx => if_neg ?_
  rintro ⟨chosen, -⟩
  obtain ⟨b', hb', rfl⟩ := Tree.exists_placed hx
  obtain ⟨collapses, ragged⟩ := (hu.mem_collapsing_iff hb').1 chosen
  -- it is a leaf of the tree as it was, and its text is what it was
  rw [Tree.content_retext, Content.members_retext leaves] at hx
  obtain ⟨y, hy, made⟩ := List.mem_map.1 hx
  obtain ⟨b, hb, rfl⟩ := Tree.exists_placed hy
  have leaf : b.body.isLeaf = true := by
    have after : b'.body.isLeaf = true := collapses.leaf
    rwa [← made, Node.isLeaf_retext (leaves _ hy)] at after
  have text : b'.text = (b.spaceAt ids).getD b.text := by
    rw [Placed.text, ← made]
    exact Node.text_retext_of_isLeaf leaf
  cases given : b.spaceAt ids with
  | some x =>
    obtain ⟨-, rfl⟩ : _ ∧ " " = x := by simpa [Node.spaceAt] using given
    exact ragged (by rw [text, given]; rfl)
  | none =>
    have kept : b'.text = b.text := by rw [text, given]; rfl
    have other : b.id ∉ ids := fun mem => by simp [Node.spaceAt, mem, leaf] at given
    refine other ((ht.mem_collapsing_iff hb).2 ⟨⟨leaf, ?_, ?_, ?_⟩, ?_⟩)
    · exact (congrArg Node.kind made).trans collapses.blank
    · have inside := collapses.inside
      rw [clamp_of_le (Nat.le_add_right _ _) (Tree.stop_le hm)] at inside
      rw [clamp_of_le (Nat.le_add_right _ _) (Tree.stop_le hn)]
      exact ht.encloses_of_retext (full_spaceAt ids) leaves hn hb hm hb' same
        (congrArg Node.id made).symm inside
    · exact kept ▸ collapses.oneLine
    · exact kept ▸ ragged

/-- **The formatter finds nothing to change** in the range of a node the second time. -/
theorem whitespace_whitespace (ht : t.Numbered) (room : HasRoom t n.span) (hn : n ∈ t.nodes)
    {m : Placed} (hm : (whitespace t n.span).tree.node? n.id = some m) :
    (whitespace (whitespace t n.span).tree m.span).tree = (whitespace t n.span).tree := by
  have none := spaceAt_collapsing_whitespace ht room hn hm
  have hu : (whitespace t n.span).tree.Numbered := tree_whitespace ht room ▸ ht.retext _
  have short : (whitespace t n.span).tree.source.utf8ByteSize < 2 ^ 32 := by
    rw [whitespace, tree_foldl_toSpace ht _ room]
    exact room _ (List.Subset.refl _)
  set u := (whitespace t n.span).tree
  -- no leaf is chosen, so there is room for the texts of those that are
  have again : HasRoom u m.span := by
    intro ids chosen
    have same : u.retext (Node.spaceAt ids) = u := by
      refine Tree.retext_of_none fun x hx => if_neg ?_
      rintro ⟨mem, leaf⟩
      obtain ⟨p, hp, rfl⟩ := Tree.exists_placed hx
      have collapsing := (mem_targets_iff hu short hp leaf).1 (chosen mem)
      have given := none _ hx
      simp [Node.spaceAt, collapsing, leaf] at given
    rwa [same]
  rw [tree_whitespace hu again]
  exact Tree.retext_of_none none

end Formatter

/-- What collapsing over a range makes of a tree. -/
structure Tree.Collapsed (t : Tree) (range : Span) (u : Tree) : Prop where
  identity : u.identity = t.identity
  /-- only leaves are given a text, and only those that collapse -/
  only : u = t.retext (Node.spaceAt (t.collapsing range))
  /-- the nodes are the same, in the same order and below the same parents -/
  nodes : u.nodes.map (fun n => (n.id, n.kind, n.parent)) =
    t.nodes.map fun n => (n.id, n.kind, n.parent)
  /-- leaves that collapse are one space, and others are what they were -/
  leaves : (u.nodes.filter (·.isLeaf)).map (fun n => (n.id, n.text)) =
    (t.nodes.filter (·.isLeaf)).map fun n => (n.id, if t.Collapses range n then " " else n.text)
  valid : u.validate = .ok ()

theorem Tree.Numbered.collapsed (ht : t.Numbered) (room : Formatter.HasRoom t range) :
    t.Collapsed range (Formatter.whitespace t range).tree := by
  rw [Formatter.tree_whitespace ht room]
  have leaves : ∀ x ∈ t.content.members, (x.spaceAt (t.collapsing range)).isSome →
      x.body.isLeaf := fun x _ => Node.isLeaf_of_spaceAt
  constructor
  case identity => rfl
  case only => rfl
  case nodes => exact Content.map_preorder_retext leaves 0 0 none
  case leaves =>
    have texts := congrArg (List.map fun x : NodeId × Kind × String => (x.1, x.2.2))
      (Tree.leaves_retext leaves)
    rw [List.map_map, List.map_map] at texts
    refine texts.trans (List.map_congr_left fun n hn => ?_)
    obtain ⟨hn, leaf⟩ := List.mem_filter.1 hn
    have leaf : n.body.isLeaf = true := leaf
    simp only [Function.comp, Node.spaceAt, ht.mem_collapsing_iff hn, leaf, and_true]
    by_cases collapses : t.Collapses range n <;> by_cases one : n.text = " " <;>
      simp [collapses, one]
  case valid => exact Tree.validate_eq_ok _

namespace Formatter

/-- **White space collapses where it should and nowhere else**, in every tree there is and over any
range, as long as offsets reach the end of the source with a space for each leaf of white space that
has no text; and over the range of a node, once is enough. -/
theorem collapsed_of_reachable (h : t.Reachable)
    (room : t.source.utf8ByteSize + t.hollow < 2 ^ 32) :
    (∀ range, t.Collapsed range (whitespace t range).tree) ∧
    ∀ n ∈ t.nodes, ∃ m, (whitespace t n.span).tree.node? n.id = some m ∧
      (whitespace (whitespace t n.span).tree m.span).tree = (whitespace t n.span).tree := by
  have ht := h.numbered
  have room := hasRoom ht room
  refine ⟨fun range => ht.collapsed (room range), fun n hn => ?_⟩
  have alive : n.id ∈ (whitespace t n.span).tree.content.ids := by
    rw [(ht.collapsed (room n.span)).only, Tree.content_retext,
      Content.ids_retext fun x _ => Node.isLeaf_of_spaceAt]
    exact Content.id_mem_ids hn
  obtain ⟨m, found⟩ := Option.isSome_iff_exists.1 (Tree.isSome_node?_iff.2 alive)
  exact ⟨m, found, whitespace_whitespace ht (room n.span) hn found⟩

/-- White space with white space below it, which is no leaf, beside empty leaves. -/
theorem collapsed_of_composite : ∃ t : Tree,
    Tree.ofEvents 0 [.start .document, .token .whitespace "", .start .whitespace,
      .token .whitespace "\t\t", .finish, .token .whitespace "", .token .whitespace " \n",
      .finish] = .ok t ∧
    t.source.utf8ByteSize + t.hollow < 2 ^ 32 ∧
    t.Collapsed ⟨1, 99⟩ (whitespace t ⟨1, 99⟩).tree ∧
    (whitespace t ⟨1, 99⟩).tree.source = "\t\t  \n" ∧
    t.Collapsed ⟨0, 2⟩ (whitespace t ⟨0, 2⟩).tree ∧
    (whitespace t ⟨0, 2⟩).tree.source = "    \n" ∧
    (whitespace t ⟨0, 2⟩).refused = [.invalidEdit (.notLeaf .whitespace ⟨1, 3⟩)] := by
  have evaluated : ((Tree.ofEvents 0 [.start .document, .token .whitespace "", .start .whitespace,
      .token .whitespace "\t\t", .finish, .token .whitespace "", .token .whitespace " \n",
      .finish]).toOption.any fun t => decide (t.source.utf8ByteSize + t.hollow < 2 ^ 32 ∧
        (whitespace t ⟨1, 99⟩).tree.source = "\t\t  \n" ∧
        (whitespace t ⟨0, 2⟩).tree.source = "    \n" ∧
        (whitespace t ⟨0, 2⟩).refused = [.invalidEdit (.notLeaf .whitespace ⟨1, 3⟩)])) = true := by
    decide +kernel
  cases built : Tree.ofEvents 0 [.start .document, .token .whitespace "", .start .whitespace,
      .token .whitespace "\t\t", .finish, .token .whitespace "", .token .whitespace " \n",
      .finish] with
  | error e => simp [built, Except.toOption] at evaluated
  | ok t =>
    obtain ⟨room, right, left, refused⟩ : t.source.utf8ByteSize + t.hollow < 2 ^ 32 ∧
        (whitespace t ⟨1, 99⟩).tree.source = "\t\t  \n" ∧
        (whitespace t ⟨0, 2⟩).tree.source = "    \n" ∧
        (whitespace t ⟨0, 2⟩).refused = [.invalidEdit (.notLeaf .whitespace ⟨1, 3⟩)] := by
      simpa [built, Except.toOption] using evaluated
    have collapsed := (collapsed_of_reachable (.built built) room).1
    exact ⟨t, rfl, room, collapsed _, right, collapsed _, left, refused⟩

end Formatter

end SyntaxLint
