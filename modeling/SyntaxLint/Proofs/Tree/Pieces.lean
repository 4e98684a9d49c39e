import SyntaxLint.Proofs.Text.Splice
import SyntaxLint.Proofs.Tree.Lookup

/-!
# Proofs — Trees — pieces of the source

The source of a tree is cut into pieces: the texts of its leaves, and the gaps before, between and
behind nodes.  What stands between two leaves are the pieces between theirs.

* `Content.pieces`, `Content.join_pieces`: the pieces of a run, which make up its text.
* `Content.standing_pieces`: the piece of a leaf begins where the leaf does.
* `Tree.Numbered.between_eq_join`: the text between two leaves.
-/

namespace SyntaxLint

/-- A piece of the source: the text of a leaf, or a gap. -/
structure Piece where
  owner : Option NodeId
  text : String
  deriving DecidableEq, Repr

/-- The text of pieces, one behind the other. -/
def Piece.join : List Piece → String
  | [] => ""
  | p :: ps => p.text ++ join ps

/-- The pieces of a run, in order. -/
def Content.pieces : Content → List Piece
  | .tail s => [⟨none, s⟩]
  | .node gap id _ body next =>
    ⟨none, gap⟩ :: ((if body.isLeaf then [⟨some id, body.text⟩] else body.pieces) ++ next.pieces)

/-- The piece of a leaf. -/
def Placed.piece (n : Placed) : Piece := ⟨some n.id, n.text⟩

/-- The leaves of a tree, in order. -/
def Tree.leaves (t : Tree) : List Placed := t.nodes.filter (·.isLeaf)

/-- The text between two nodes. -/
def Tree.between (t : Tree) (x y : Placed) : String :=
  Text.slice t.source x.span.stop y.span.start

/-- Pieces from an offset on, of which those of leaves are where the leaves are. -/
def Piece.Standing (ns : List Placed) : Nat → List Piece → Prop
  | _, [] => True
  | start, p :: ps =>
    (∀ id, p.owner = some id → ∃ n ∈ ns, n.id = id ∧ n.start = start) ∧
      Standing ns (start + p.text.utf8ByteSize) ps

namespace Piece

variable {ps qs : List Piece} {ns ms : List Placed} {start : Nat} {c : Char}

@[simp] theorem join_nil : join [] = "" := rfl

@[simp] theorem join_cons (p : Piece) (ps : List Piece) : join (p :: ps) = p.text ++ join ps := rfl

@[simp] theorem join_append (ps qs : List Piece) : join (ps ++ qs) = join ps ++ join qs := by
  induction ps with
  | nil => simp
  | cons p ps ih => simp [ih, String.append_assoc]

theorem mem_join_iff : c ∈ (join ps).toList ↔ ∃ p ∈ ps, c ∈ p.text.toList := by
  induction ps with
  | nil => simp
  | cons p ps ih => simp [ih]

theorem Standing.mono (sub : ns ⊆ ms) (h : Standing ns start ps) : Standing ms start ps := by
  induction ps generalizing start with
  | nil => trivial
  | cons p ps ih =>
    refine ⟨fun id owner => ?_, ih h.2⟩
    obtain ⟨n, hn, there⟩ := h.1 id owner
    exact ⟨n, sub hn, there⟩

theorem standing_append : Standing ns start (ps ++ qs) ↔
    Standing ns start ps ∧ Standing ns (start + (join ps).utf8ByteSize) qs := by
  induction ps generalizing start with
  | nil => simp [Standing]
  | cons p ps ih => simp [Standing, ih, and_assoc, String.utf8ByteSize_append, Nat.add_assoc]

end Piece

namespace Content

variable {c : Content} {start : Nat} {parent : Option NodeId}

/-- **The pieces make up the text.** -/
theorem join_pieces (c : Content) : Piece.join c.pieces = c.text := by
  induction c with
  | tail s => simp [pieces]
  | node gap id kind body next ihb ihn =>
    rw [pieces, text_node, Piece.join_cons, Piece.join_append, ihn, String.append_assoc]
    split
    · simp
    · rw [ihb]

/-- The pieces that are no gaps are those of leaves. -/
theorem filter_pieces (c : Content) (start : Nat) (parent : Option NodeId) :
    c.pieces.filter (·.owner.isSome) =
      ((c.preorder start parent).filter (·.isLeaf)).map Placed.piece := by
  induction c generalizing start parent with
  | tail s => rfl
  | node gap id kind body next ihb ihn =>
    rw [pieces, preorder, List.filter_cons_of_neg (by simp), List.filter_append,
      ihn (start + gap.utf8ByteSize + body.width) parent, List.filter_append, List.map_append]
    congr 1
    cases leaf : body.isLeaf with
    | true =>
      have alone : Placed.isLeaf ⟨⟨id, kind, body⟩, start + gap.utf8ByteSize, parent⟩ := leaf
      rw [if_pos rfl, preorder_of_isLeaf leaf, List.filter_cons_of_pos alone]
      rfl
    | false =>
      have composite : ¬ (Placed.isLeaf ⟨⟨id, kind, body⟩, start + gap.utf8ByteSize, parent⟩) :=
        Bool.eq_false_iff.1 leaf
      rw [if_neg Bool.false_ne_true, List.filter_cons_of_neg composite, ihb]

/-- **The piece of a leaf begins where the leaf does.** -/
theorem standing_pieces (c : Content) (start : Nat) (parent : Option NodeId) :
    Piece.Standing (c.preorder start parent) start c.pieces := by
  induction c generalizing start parent with
  | tail s => simp [pieces, Piece.Standing]
  | node gap id kind body next ihb ihn =>
    have here := ihb (start + gap.utf8ByteSize) (some id)
    have behind := ihn (start + gap.utf8ByteSize + body.width) parent
    refine ⟨nofun, Piece.standing_append.2 ⟨?_, ?_⟩⟩
    · split
      · refine ⟨fun i owner => ⟨_, List.mem_append_left _ List.mem_cons_self, ?_, rfl⟩, trivial⟩
        exact Option.some.inj owner
      · exact here.mono fun n hn => List.mem_append_left _ (List.mem_cons_of_mem _ hn)
    · have width : (Piece.join (if body.isLeaf then [⟨some id, body.text⟩]
          else body.pieces)).utf8ByteSize = body.width := by
        rw [width_eq]
        split
        · simp
        · rw [join_pieces]
      rw [width]
      exact behind.mono fun n hn => List.mem_append_right _ hn

end Content

namespace Tree

variable {t : Tree} {n x y : Placed} {ps ms qs : List Piece} {p : Piece}

theorem mem_leaves_iff : n ∈ t.leaves ↔ n ∈ t.nodes ∧ n.isLeaf = true := List.mem_filter

theorem leaves_sublist (t : Tree) : t.leaves.Sublist t.nodes := List.filter_sublist

/-- The pieces that are no gaps are those of leaves. -/
theorem filter_pieces (t : Tree) :
    t.content.pieces.filter (·.owner.isSome) = t.leaves.map Placed.piece :=
  t.content.filter_pieces 0 none

theorem exists_leaf (hp : p ∈ t.content.pieces) (owned : p.owner.isSome = true) :
    ∃ n ∈ t.leaves, n.piece = p := by
  have listed : p ∈ t.content.pieces.filter (·.owner.isSome) := List.mem_filter.2 ⟨hp, owned⟩
  rw [filter_pieces] at listed
  exact List.mem_map.1 listed

/-- **Leaves in order**: the pieces of those between the first and the last are between theirs. -/
theorem exists_pieces (xs : List Placed) (h : (x :: (xs ++ [y])).Sublist t.leaves) :
    ∃ ps ms qs, t.content.pieces = ps ++ x.piece :: (ms ++ y.piece :: qs) ∧
      (xs.map Placed.piece).Sublist ms := by
  have listed := h.map Placed.piece
  rw [← filter_pieces, List.map_cons, List.map_append] at listed
  obtain ⟨as, bs, whole, first, behind⟩ :=
    List.cons_sublist_iff.1 (listed.trans List.filter_sublist)
  obtain ⟨cs, ds, rfl, between, last⟩ := List.append_sublist_iff.1 behind
  obtain ⟨ps, as, rfl⟩ := List.append_of_mem first
  obtain ⟨ds, qs, rfl⟩ := List.append_of_mem (List.singleton_sublist.1 last)
  refine ⟨ps, as ++ cs ++ ds, qs, by simp [whole], ?_⟩
  exact between.trans ((List.sublist_append_right _ _).trans (List.sublist_append_left _ _))

/-- Where identities are distinct, a piece is that of one leaf. -/
theorem Numbered.eq_of_piece_eq (ht : t.Numbered) (hx : x ∈ t.leaves) (hy : y ∈ t.leaves)
    (same : x.piece = y.piece) : x = y :=
  ht.eq_of_id_eq (mem_leaves_iff.1 hx).1 (mem_leaves_iff.1 hy).1
    (Option.some.inj (congrArg Piece.owner same))

/-- A piece between those of two leaves is a gap or that of a leaf between them. -/
theorem Numbered.exists_leaf_of_mem (ht : t.Numbered) (hx : x ∈ t.leaves) (hy : y ∈ t.leaves)
    (cut : t.content.pieces = ps ++ x.piece :: (ms ++ y.piece :: qs)) (hp : p ∈ ms)
    (owned : p.owner.isSome = true) : ∃ z, z.piece = p ∧ [x, z, y].Sublist t.leaves := by
  have order : [x.piece, p, y.piece].Sublist t.content.pieces := by
    have within : ([p] ++ [y.piece]).Sublist (ms ++ y.piece :: qs) :=
      (List.singleton_sublist.2 hp).append (List.singleton_sublist.2 List.mem_cons_self)
    rw [cut]
    exact (within.cons_cons x.piece).trans (List.sublist_append_right ps _)
  have listed := order.filter (·.owner.isSome)
  rw [filter_pieces, List.filter_eq_self.2 (by simp [owned, Placed.piece])] at listed
  obtain ⟨zs, sub, same⟩ := List.sublist_map_iff.1 listed
  obtain ⟨x', zs, rfl, sameX, same⟩ := List.map_eq_cons_iff.1 same.symm
  obtain ⟨z, zs, rfl, sameZ, same⟩ := List.map_eq_cons_iff.1 same
  obtain ⟨y', zs, rfl, sameY, same⟩ := List.map_eq_cons_iff.1 same
  obtain rfl := List.map_eq_nil_iff.1 same
  obtain rfl := ht.eq_of_piece_eq (sub.subset (by simp)) hx sameX
  obtain rfl := ht.eq_of_piece_eq (sub.subset (by simp)) hy sameY
  exact ⟨z, sameZ, sub⟩

/-- **The text between two leaves** is that of the pieces between theirs. -/
theorem Numbered.between_eq_join (ht : t.Numbered) (hx : x ∈ t.nodes) (hy : y ∈ t.nodes)
    (cut : t.content.pieces = ps ++ x.piece :: (ms ++ y.piece :: qs)) :
    t.between x y = Piece.join ms := by
  have standing := t.content.standing_pieces 0 none
  rw [cut, Piece.standing_append] at standing
  obtain ⟨-, first, behind⟩ := standing
  rw [Piece.standing_append] at behind
  obtain ⟨-, last, -⟩ := behind
  obtain ⟨x', hx', same, left⟩ := first x.id rfl
  obtain rfl := ht.eq_of_id_eq hx' hx same
  obtain ⟨y', hy', same', right⟩ := last y.id rfl
  obtain rfl := ht.eq_of_id_eq hy' hy same'
  have source : t.source = Piece.join ps ++ x'.text ++ Piece.join ms ++
      Piece.join (y'.piece :: qs) := by
    have whole : t.source = t.content.text := rfl
    rw [whole, ← t.content.join_pieces, cut, Piece.join_append, Piece.join_cons,
      Piece.join_append]
    simp only [Placed.piece, String.append_assoc]
  have stop : x'.span.stop = (Piece.join ps ++ x'.text).utf8ByteSize := by
    rw [String.utf8ByteSize_append, Placed.span, left, Nat.zero_add, Content.width_eq]
    rfl
  have start : y'.span.start =
      (Piece.join ps ++ x'.text).utf8ByteSize + (Piece.join ms).utf8ByteSize := by
    rw [String.utf8ByteSize_append, Placed.span, right, Nat.zero_add]
    rfl
  rw [between, source, stop, start, Text.slice_append]

end Tree

end SyntaxLint
