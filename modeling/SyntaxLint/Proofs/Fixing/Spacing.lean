import Mathlib.Algebra.BigOperators.Group.List.Basic
import Mathlib.Algebra.GroupWithZero.Nat
import SyntaxLint.Proofs.Fixing.Collapse
import SyntaxLint.Proofs.Tree.Pieces
import SyntaxLint.Text.Blank

/-!
# Proofs — Fixing — spaces that are put in

Formatting is to collapse white space: the source gets no longer, and where there was no white space
between two leaves there is no space afterwards.  But the formatter makes one space of whatever text
there is on one line.  A leaf that is empty becomes a space too, and so does one that is white space
by its kind alone; so both can fail.  How long the source gets, and between which leaves there is a
space afterwards, is read off the leaves that collapse.

* `Tree.OnlyCollapses`: white space is taken away and none is put in.
* `Content.pieces_retext`: the pieces of the source after leaves become one space.
* `Formatter.bytes_whitespace`, `Formatter.mem_between_whitespace_iff`: how long the source gets,
  and where there is a space.
* `Formatter.onlyCollapses_iff_of_reachable`: when formatting does no more than collapse.
-/

namespace SyntaxLint

/-- Whether a piece is that of one of some leaves. -/
def Piece.isOf (ids : List NodeId) (p : Piece) : Bool := p.owner.any (· ∈ ids)

/-- A piece, with one space for its text if it is that of one of some leaves. -/
def Piece.spaced (ids : List NodeId) (p : Piece) : Piece :=
  if p.isOf ids then { p with text := " " } else p

/-- The leaves that collapse over a range, those that are one space with them. -/
def Tree.collapsible (t : Tree) (range : Span) : List Placed :=
  t.leaves.filter fun n => t.Collapses range n

/-- White space is taken away and none is put in. -/
structure Tree.OnlyCollapses (t u : Tree) : Prop where
  /-- the source gets no longer -/
  shorter : u.source.utf8ByteSize ≤ t.source.utf8ByteSize
  /-- between two leaves without white space between them there is no space -/
  apart : ∀ x y, [x, y].Sublist t.leaves →
    (∀ c ∈ (t.between x y).toList, Text.isBlank c = false) →
    ∀ x' y', u.node? x.id = some x' → u.node? y.id = some y' → ' ' ∉ (u.between x' y').toList

variable {t : Tree} {range : Span} {ids : List NodeId} {n x y z x' y' : Placed}
  {p : Piece} {ps ms qs : List Piece}

/-! ### Pieces -/

namespace Piece

theorem owner_spaced (ids : List NodeId) (p : Piece) : (p.spaced ids).owner = p.owner := by
  rw [spaced]
  split <;> rfl

theorem spaced_of_isOf (h : p.isOf ids = true) : p.spaced ids = ⟨p.owner, " "⟩ := if_pos h

theorem spaced_of_not_isOf (h : p.isOf ids = false) : p.spaced ids = p :=
  if_neg (Bool.eq_false_iff.1 h)

/-- How long a text gets when some of its pieces become one space. -/
theorem bytes_map_spaced (ids : List NodeId) (ps : List Piece) :
    (join (ps.map (spaced ids))).utf8ByteSize +
        ((ps.filter (isOf ids)).map (·.text.utf8ByteSize)).sum =
      (join ps).utf8ByteSize + (ps.filter (isOf ids)).length := by
  induction ps with
  | nil => rfl
  | cons p ps ih =>
    have one : " ".utf8ByteSize = 1 := rfl
    cases chosen : p.isOf ids with
    | true =>
      rw [List.filter_cons_of_pos chosen]
      simp only [List.map_cons, join_cons, spaced_of_isOf chosen, String.utf8ByteSize_append, one,
        List.sum_cons, List.length_cons]
      omega
    | false =>
      rw [List.filter_cons_of_neg (Bool.eq_false_iff.1 chosen)]
      simp only [List.map_cons, join_cons, spaced_of_not_isOf chosen, String.utf8ByteSize_append]
      omega

/-- Where there is a space when some pieces become one. -/
theorem space_mem_map_spaced_iff : ' ' ∈ (join (ms.map (spaced ids))).toList ↔
    ' ' ∈ (join ms).toList ∨ ∃ p ∈ ms, p.isOf ids = true := by
  rw [mem_join_iff, mem_join_iff]
  constructor
  · rintro ⟨q, hq, space⟩
    obtain ⟨p, hp, rfl⟩ := List.mem_map.1 hq
    cases chosen : p.isOf ids with
    | true => exact .inr ⟨p, hp, chosen⟩
    | false => exact .inl ⟨p, hp, spaced_of_not_isOf chosen ▸ space⟩
  · rintro (⟨p, hp, space⟩ | ⟨p, hp, chosen⟩)
    · refine ⟨p.spaced ids, List.mem_map_of_mem hp, ?_⟩
      cases chosen : p.isOf ids with
      | true => simp [spaced_of_isOf chosen]
      | false => rwa [spaced_of_not_isOf chosen]
    · exact ⟨p.spaced ids, List.mem_map_of_mem hp, by simp [spaced_of_isOf chosen]⟩

end Piece

/-- **The pieces of a run in which leaves become one space.** -/
theorem Content.pieces_retext (ids : List NodeId) (c : Content) :
    (c.retext (Node.spaceAt ids)).pieces = c.pieces.map (Piece.spaced ids) := by
  induction c with
  | tail s => rfl
  | node gap id kind body next ihb ihn =>
    cases body with
    | tail s =>
      by_cases chosen : id ∈ ids <;>
        simp [retext, pieces, Node.spaceAt, Piece.spaced, Piece.isOf, isLeaf, chosen, ihn]
    | node gap' id' kind' body' next' =>
      have kept : Node.spaceAt ids ⟨id, kind, .node gap' id' kind' body' next'⟩ = none := by
        simp [Node.spaceAt, isLeaf]
      have composite : ((Content.node gap' id' kind' body' next').retext
        (Node.spaceAt ids)).isLeaf = false := rfl
      rw [retext, kept]
      simp only [Option.map_none, Option.getD_none, pieces.eq_2 gap, composite, ihb, ihn]
      simp [isLeaf, Piece.spaced, Piece.isOf]

namespace Formatter

theorem id_mem_collapsible_iff (ht : t.Numbered) (hn : n ∈ t.leaves) :
    n.id ∈ (t.collapsible range).map (·.id) ↔ t.Collapses range n := by
  rw [List.mem_map]
  constructor
  · rintro ⟨m, hm, same⟩
    obtain ⟨hm, collapses⟩ := List.mem_filter.1 hm
    obtain rfl := ht.eq_of_id_eq (t.leaves_sublist.subset hm) (t.leaves_sublist.subset hn) same
    simpa using collapses
  · exact fun collapses => ⟨n, List.mem_filter.2 ⟨hn, by simpa using collapses⟩, rfl⟩

/-- The piece of a leaf is one of those that collapse if the leaf does. -/
theorem isOf_piece (ht : t.Numbered) (hn : n ∈ t.leaves) :
    n.piece.isOf ((t.collapsible range).map (·.id)) = decide (t.Collapses range n) :=
  decide_eq_decide.2 (id_mem_collapsible_iff ht hn)

/-- **The pieces after formatting.** -/
theorem pieces_whitespace (ht : t.Numbered) (room : HasRoom t range) :
    (whitespace t range).tree.content.pieces =
      t.content.pieces.map (Piece.spaced ((t.collapsible range).map (·.id))) := by
  rw [tree_whitespace ht room, Tree.content_retext, Content.pieces_retext]
  refine List.map_congr_left fun p hp => ?_
  cases owner : p.owner with
  | none =>
    have gap : ∀ ids, p.isOf ids = false := fun ids => by simp [Piece.isOf, owner]
    rw [Piece.spaced_of_not_isOf (gap _), Piece.spaced_of_not_isOf (gap _)]
  | some id =>
    obtain ⟨n, hn, rfl⟩ := Tree.exists_leaf hp (by rw [owner]; rfl)
    have chosen : n.piece.isOf (t.collapsing range) =
        decide (t.Collapses range n ∧ n.text ≠ " ") :=
      decide_eq_decide.2 (ht.mem_collapsing_iff (t.leaves_sublist.subset hn))
    rw [Piece.spaced, Piece.spaced, chosen, isOf_piece ht hn]
    by_cases collapses : t.Collapses range n <;> by_cases one : n.text = " " <;>
      simp [collapses, one, Placed.piece]

/-- The pieces of the leaves that collapse. -/
theorem filter_pieces (ht : t.Numbered) (range : Span) :
    t.content.pieces.filter (Piece.isOf ((t.collapsible range).map (·.id))) =
      (t.collapsible range).map Placed.piece := by
  set ids := (t.collapsible range).map (·.id) with hids
  have owned : Piece.isOf ids = fun p => p.isOf ids && p.owner.isSome := by
    funext p
    cases owner : p.owner <;> simp [Piece.isOf, owner]
  rw [owned, ← List.filter_filter, Tree.filter_pieces, List.filter_map]
  refine congrArg _ (List.filter_congr fun n hn => ?_)
  exact isOf_piece ht hn

/-- **How long the source gets**: by one byte for each leaf that collapses, less their texts. -/
theorem bytes_whitespace (ht : t.Numbered) (room : HasRoom t range) :
    (whitespace t range).tree.source.utf8ByteSize +
        ((t.collapsible range).map (·.text.utf8ByteSize)).sum =
      t.source.utf8ByteSize + (t.collapsible range).length := by
  have sizes := Piece.bytes_map_spaced ((t.collapsible range).map (·.id)) t.content.pieces
  rw [← pieces_whitespace ht room, Content.join_pieces, Content.join_pieces, filter_pieces ht,
    List.map_map, List.length_map] at sizes
  exact sizes

/-- The text between two leaves after formatting. -/
theorem between_whitespace (ht : t.Numbered) (room : HasRoom t range)
    (cut : t.content.pieces = ps ++ x.piece :: (ms ++ y.piece :: qs))
    (foundX : (whitespace t range).tree.node? x.id = some x')
    (foundY : (whitespace t range).tree.node? y.id = some y') :
    (whitespace t range).tree.between x' y' =
      Piece.join (ms.map (Piece.spaced ((t.collapsible range).map (·.id)))) := by
  have hu : (whitespace t range).tree.Numbered := tree_whitespace ht room ▸ ht.retext _
  set ids := (t.collapsible range).map (·.id) with hids
  have pieces : (whitespace t range).tree.content.pieces = ps.map (Piece.spaced ids) ++
      x.piece.spaced ids :: (ms.map (Piece.spaced ids) ++ y.piece.spaced ids ::
        qs.map (Piece.spaced ids)) := by
    rw [pieces_whitespace ht room, cut, ← hids, List.map_append, List.map_cons, List.map_append,
      List.map_cons]
  have here : ∀ {n n' : Placed}, (whitespace t range).tree.node? n.id = some n' →
      n.piece.spaced ids ∈ (whitespace t range).tree.content.pieces →
      n' ∈ (whitespace t range).tree.nodes ∧ n'.piece = n.piece.spaced ids := by
    intro n n' found mem
    obtain ⟨hn', same⟩ := hu.node?_eq_some_iff.1 found
    obtain ⟨m, hm, made⟩ := Tree.exists_leaf mem (by rw [Piece.owner_spaced]; rfl)
    have owner := (congrArg Piece.owner made).trans (Piece.owner_spaced ids n.piece)
    obtain rfl := hu.eq_of_id_eq (Tree.leaves_sublist _ |>.subset hm) hn'
      ((Option.some.inj owner).trans same.symm)
    exact ⟨hn', made⟩
  obtain ⟨hx', madeX⟩ := here foundX (by simp [pieces])
  obtain ⟨hy', madeY⟩ := here foundY (by simp [pieces])
  rw [← madeX, ← madeY] at pieces
  exact hu.between_eq_join hx' hy' pieces

/-- **Where there is a space** between two leaves after formatting. -/
theorem mem_between_whitespace_iff (ht : t.Numbered) (room : HasRoom t range)
    (order : [x, y].Sublist t.leaves) (hx : (whitespace t range).tree.node? x.id = some x')
    (hy : (whitespace t range).tree.node? y.id = some y') :
    ' ' ∈ ((whitespace t range).tree.between x' y').toList ↔
      ' ' ∈ (t.between x y).toList ∨
        ∃ z, [x, z, y].Sublist t.leaves ∧ t.Collapses range z := by
  have first : x ∈ t.leaves := order.subset (by simp)
  have last : y ∈ t.leaves := order.subset (by simp)
  constructor
  · intro space
    obtain ⟨ps, ms, qs, cut, -⟩ := Tree.exists_pieces [] order
    rw [between_whitespace ht room cut hx hy, Piece.space_mem_map_spaced_iff] at space
    rw [ht.between_eq_join (t.leaves_sublist.subset first) (t.leaves_sublist.subset last) cut]
    refine space.imp_right fun ⟨p, hp, chosen⟩ => ?_
    obtain ⟨z, rfl, between⟩ := ht.exists_leaf_of_mem first last cut hp
      (Option.isSome_of_any chosen)
    rw [isOf_piece ht (between.subset (by simp))] at chosen
    exact ⟨z, between, of_decide_eq_true chosen⟩
  · rintro (space | ⟨z, between, collapses⟩)
    · obtain ⟨ps, ms, qs, cut, -⟩ := Tree.exists_pieces [] order
      rw [ht.between_eq_join (t.leaves_sublist.subset first) (t.leaves_sublist.subset last) cut]
        at space
      rw [between_whitespace ht room cut hx hy, Piece.space_mem_map_spaced_iff]
      exact .inl space
    · obtain ⟨ps, ms, qs, cut, inside⟩ := Tree.exists_pieces [z] between
      rw [between_whitespace ht room cut hx hy, Piece.space_mem_map_spaced_iff]
      refine .inr ⟨z.piece, inside.subset (by simp), ?_⟩
      rw [isOf_piece ht (between.subset (by simp))]
      exact decide_eq_true collapses

/-! ### Trees -/

/-- The nodes of a tree are there after formatting. -/
theorem exists_node?_whitespace (ht : t.Numbered) (room : HasRoom t range) (hn : n ∈ t.leaves) :
    ∃ m, (whitespace t range).tree.node? n.id = some m := by
  have alive : n.id ∈ (whitespace t range).tree.content.ids := by
    rw [tree_whitespace ht room, Tree.content_retext,
      Content.ids_retext fun x _ => Node.isLeaf_of_spaceAt]
    exact Content.id_mem_ids (t.leaves_sublist.subset hn)
  exact Option.isSome_iff_exists.1 (Tree.isSome_node?_iff.2 alive)

/-- **Formatting does no more than collapse** just if the leaves that collapse have as many bytes as
there are of them, or more, and if between two leaves with one of those between them there is always
white space. -/
theorem onlyCollapses_iff (ht : t.Numbered) (room : HasRoom t range) :
    t.OnlyCollapses (whitespace t range).tree ↔
      (t.collapsible range).length ≤ ((t.collapsible range).map (·.text.utf8ByteSize)).sum ∧
      ∀ x z y, [x, z, y].Sublist t.leaves → t.Collapses range z →
        ∃ c ∈ (t.between x y).toList, Text.isBlank c = true := by
  have bytes := bytes_whitespace ht room
  constructor
  · refine fun only => ⟨by have := only.shorter; omega, fun x z y between collapses => ?_⟩
    by_contra! none
    obtain ⟨x', hx⟩ := exists_node?_whitespace ht room (between.subset (by simp) : x ∈ t.leaves)
    obtain ⟨y', hy⟩ := exists_node?_whitespace ht room (between.subset (by simp) : y ∈ t.leaves)
    have order := ((List.sublist_cons_self z [y]).cons_cons x).trans between
    exact only.apart x y order (by simpa using none) x' y' hx hy
      ((mem_between_whitespace_iff ht room order hx hy).2 (.inr ⟨z, between, collapses⟩))
  · rintro ⟨enough, blank⟩
    refine ⟨by omega, fun x y order none x' y' hx hy space => ?_⟩
    rcases (mem_between_whitespace_iff ht room order hx hy).1 space with
      old | ⟨z, between, collapses⟩
    · exact absurd (none _ old) (by decide)
    · obtain ⟨c, hc, white⟩ := blank x z y between collapses
      rw [none c hc] at white
      cases white

/-- Formatting does no more than collapse where all leaves that collapse have white space in
them. -/
theorem onlyCollapses_of_blank (ht : t.Numbered) (room : HasRoom t range)
    (blank : ∀ n ∈ t.collapsible range, ∃ c ∈ n.text.toList, Text.isBlank c = true) :
    t.OnlyCollapses (whitespace t range).tree := by
  refine (onlyCollapses_iff ht room).2 ⟨?_, fun x z y between collapses => ?_⟩
  · have filled : ∀ n ∈ t.collapsible range, 1 ≤ n.text.utf8ByteSize := by
      intro n hn
      obtain ⟨c, hc, -⟩ := blank n hn
      refine Nat.one_le_iff_ne_zero.2 fun empty => ?_
      rw [String.utf8ByteSize_eq_zero_iff.1 empty] at hc
      cases hc
    simpa using List.length_le_sum_of_one_le
      ((t.collapsible range).map (·.text.utf8ByteSize)) (by simpa using filled)
  · have mem : ∀ n ∈ [x, z, y], n ∈ t.leaves := fun n hn => between.subset hn
    obtain ⟨c, hc, white⟩ :=
      blank z (List.mem_filter.2 ⟨mem z (by simp), decide_eq_true collapses⟩)
    obtain ⟨ps, ms, qs, cut, inside⟩ := Tree.exists_pieces [z] between
    rw [ht.between_eq_join (t.leaves_sublist.subset (mem x (by simp)))
      (t.leaves_sublist.subset (mem y (by simp))) cut]
    exact ⟨c, Piece.mem_join_iff.2 ⟨z.piece, inside.subset (by simp), hc⟩, white⟩

/-- **What formatting does to the white space of a tree**, as long as offsets reach the end of the
source with a space for each leaf of white space that has no text.  The source gets longer by one
byte for each leaf that collapses, less the texts of those.  Between two leaves there is a space if
there was one, or if one between them collapses.  So formatting does no more than collapse where the
leaves that collapse are long enough and have white space around them; and so it is where each of
them has white space in it. -/
theorem onlyCollapses_iff_of_reachable (h : t.Reachable)
    (room : t.source.utf8ByteSize + t.hollow < 2 ^ 32) (range : Span) :
    (whitespace t range).tree.source.utf8ByteSize +
        ((t.collapsible range).map (·.text.utf8ByteSize)).sum =
      t.source.utf8ByteSize + (t.collapsible range).length ∧
    (∀ x y x' y', [x, y].Sublist t.leaves → (whitespace t range).tree.node? x.id = some x' →
      (whitespace t range).tree.node? y.id = some y' →
        (' ' ∈ ((whitespace t range).tree.between x' y').toList ↔
          ' ' ∈ (t.between x y).toList ∨
            ∃ z, [x, z, y].Sublist t.leaves ∧ t.Collapses range z)) ∧
    (t.OnlyCollapses (whitespace t range).tree ↔
      (t.collapsible range).length ≤ ((t.collapsible range).map (·.text.utf8ByteSize)).sum ∧
      ∀ x z y, [x, z, y].Sublist t.leaves → t.Collapses range z →
        ∃ c ∈ (t.between x y).toList, Text.isBlank c = true) ∧
    ((∀ n ∈ t.collapsible range, ∃ c ∈ n.text.toList, Text.isBlank c = true) →
      t.OnlyCollapses (whitespace t range).tree) :=
  have ht := h.numbered
  have room := hasRoom ht room range
  ⟨bytes_whitespace ht room,
    fun _ _ _ _ order hx hy => mem_between_whitespace_iff ht room order hx hy,
    onlyCollapses_iff ht room, onlyCollapses_of_blank ht room⟩

/-- White space of two characters, which becomes one. -/
theorem onlyCollapses_of_tab : ∃ t : Tree,
    Tree.ofEvents 0 [.start .document, .token .text "a", .token .whitespace "\t ",
      .token .text "b", .finish] = .ok t ∧
    t.source.utf8ByteSize + t.hollow < 2 ^ 32 ∧
    t.collapsible ⟨0, 9⟩ = [⟨⟨1, .whitespace, .tail "\t "⟩, 1, some 3⟩] ∧
    t.OnlyCollapses (whitespace t ⟨0, 9⟩).tree ∧
    (whitespace t ⟨0, 9⟩).tree.source = "a b" := by
  let t : Tree := ⟨0, "", ⟨3, .document, .node "" 0 .text (.tail "a") (.node "" 1 .whitespace
    (.tail "\t ") (.node "" 2 .text (.tail "b") (.tail "")))⟩, ""⟩
  have built : Tree.ofEvents 0 [.start .document, .token .text "a", .token .whitespace "\t ",
      .token .text "b", .finish] = .ok t := rfl
  have only : t.collapsible ⟨0, 9⟩ = [⟨⟨1, .whitespace, .tail "\t "⟩, 1, some 3⟩] := by
    decide +kernel
  have room : t.source.utf8ByteSize + t.hollow < 2 ^ 32 := by decide +kernel
  refine ⟨t, built, room, only, ?_, by decide +kernel⟩
  refine (onlyCollapses_iff_of_reachable (.built built) room ⟨0, 9⟩).2.2.2 fun n hn => ?_
  rw [only, List.mem_singleton] at hn
  subst hn
  exact ⟨'\t', by decide +kernel, by decide⟩

/-- An empty leaf, which becomes a space: the source gets longer, and between two leaves without
white space between them there is a space. -/
theorem not_onlyCollapses_of_empty : ∃ t : Tree,
    Tree.ofOutline 0 "ab" ⟨.document, ⟨0, 2⟩, .node .text ⟨0, 1⟩ .done (.node .whitespace ⟨1, 1⟩
      .done (.node .text ⟨1, 2⟩ .done .done))⟩ = .ok t ∧
    t.Reachable ∧ ¬ t.OnlyCollapses (whitespace t ⟨0, 2⟩).tree ∧
    (whitespace t ⟨0, 2⟩).tree.source = "a b" ∧
    ∃ x y x' y', [x, y].Sublist t.leaves ∧ t.between x y = "" ∧
      (whitespace t ⟨0, 2⟩).tree.node? x.id = some x' ∧
      (whitespace t ⟨0, 2⟩).tree.node? y.id = some y' ∧
      (whitespace t ⟨0, 2⟩).tree.between x' y' = " " := by
  have stored : Tree.ofOutline 0 "ab" ⟨.document, ⟨0, 2⟩, .node .text ⟨0, 1⟩ .done
      (.node .whitespace ⟨1, 1⟩ .done (.node .text ⟨1, 2⟩ .done .done))⟩ =
      .ok ⟨0, "", ⟨3, .document, .node "" 0 .text (.tail "a") (.node "" 1 .whitespace (.tail "")
        (.node "" 2 .text (.tail "b") (.tail "")))⟩, ""⟩ := rfl
  refine ⟨_, stored, .stored stored, fun only => ?_, by decide +kernel,
    ⟨⟨0, .text, .tail "a"⟩, 0, some 3⟩, ⟨⟨2, .text, .tail "b"⟩, 1, some 3⟩,
    ⟨⟨0, .text, .tail "a"⟩, 0, some 3⟩, ⟨⟨2, .text, .tail "b"⟩, 2, some 3⟩, ?_⟩
  · exact absurd only.shorter (by decide +kernel)
  · decide +kernel

end Formatter

end SyntaxLint
