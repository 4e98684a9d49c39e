import SyntaxLint.Proofs.Tree.Children

/-!
# Proofs — Trees — tokens that tile the text

Where no text stands outside the tokens of a run, the tokens tile it: the first begins where the
run does, each next where the one before ends, and the last ends where the run does.  What is tiled
by spans, one at least, is their hull.

* `Span.Tiles`: spans side by side.
* `Span.Tiles.hull?_eq`: their hull.
* `Content.tiles_tokens`: the tokens of a run.
* `Placed.hull?_tokens`, `Tree.Packed.tiles_tokens`: the tokens of a node and of a tree.
-/

namespace SyntaxLint

namespace Span

/-- The spans lie side by side from `lo` to `hi`. -/
def Tiles : Nat → List Span → Nat → Prop
  | lo, [], hi => lo = hi
  | lo, s :: spans, hi => s.start = lo ∧ Tiles s.stop spans hi

/-- The least span that covers all of the given ones, if there are any. -/
def hull? : List Span → Option Span
  | [] => none
  | s :: spans => some (spans.foldl merge s)

variable {lo mid hi : Nat} {spans spans' : List Span}

theorem Tiles.append (h : Tiles lo spans mid) (h' : Tiles mid spans' hi) :
    Tiles lo (spans ++ spans') hi := by
  induction spans generalizing lo with
  | nil =>
    obtain rfl : lo = mid := h
    exact h'
  | cons s spans ih => exact ⟨h.1, ih h.2⟩

theorem Tiles.split (h : Tiles lo (spans ++ spans') hi) :
    ∃ mid, Tiles lo spans mid ∧ Tiles mid spans' hi := by
  induction spans generalizing lo with
  | nil => exact ⟨lo, rfl, h⟩
  | cons s spans ih =>
    obtain ⟨mid, first, second⟩ := ih h.2
    exact ⟨mid, ⟨h.1, first⟩, second⟩

theorem Tiles.le (h : Tiles lo spans hi) (hs : ∀ s ∈ spans, s.start ≤ s.stop) : lo ≤ hi := by
  induction spans generalizing lo with
  | nil => exact Nat.le_of_eq h
  | cons s spans ih =>
    obtain ⟨rfl, rest⟩ := h
    rw [List.forall_mem_cons] at hs
    exact Nat.le_trans hs.1 (ih rest hs.2)

/-- Spans that are not empty tile nothing but what is not empty. -/
theorem Tiles.eq_nil (h : Tiles lo spans lo) (hs : ∀ s ∈ spans, s.start < s.stop) : spans = [] := by
  cases spans with
  | nil => rfl
  | cons s spans =>
    obtain ⟨rfl, rest⟩ := h
    rw [List.forall_mem_cons] at hs
    have le := rest.le fun s h => Nat.le_of_lt (hs.2 s h)
    omega

/-- A span that begins where the spans do covers all of them. -/
theorem Tiles.foldl_merge {s : Span} (h : Tiles s.stop spans hi)
    (hs : ∀ s ∈ spans, s.start ≤ s.stop) (le : s.start ≤ s.stop) :
    spans.foldl merge s = ⟨s.start, hi⟩ := by
  induction spans generalizing s with
  | nil =>
    obtain rfl : s.stop = hi := h
    rfl
  | cons s' spans ih =>
    obtain ⟨next, rest⟩ := h
    rw [List.forall_mem_cons] at hs
    have merged : s.merge s' = ⟨s.start, s'.stop⟩ := by
      rw [merge, Nat.min_eq_left (by omega), Nat.max_eq_right (by omega)]
    rw [List.foldl_cons, merged]
    exact ih rest hs.2 (by simp only; omega)

/-- **What is tiled is the hull of the tiles**, if there are any. -/
theorem Tiles.hull?_eq (h : Tiles lo spans hi) (hs : ∀ s ∈ spans, s.start ≤ s.stop)
    (ne : spans ≠ []) : hull? spans = some ⟨lo, hi⟩ := by
  cases spans with
  | nil => exact absurd rfl ne
  | cons s spans =>
    obtain ⟨rfl, rest⟩ := h
    rw [List.forall_mem_cons] at hs
    rw [hull?, rest.foldl_merge hs.2 hs.1]

end Span

/-! ### Tokens -/

/-- The tokens at and below a node, in order. -/
def Placed.tokens (n : Placed) : List Placed := n.preorder.filter (·.kind.isToken)

/-- The tokens of a tree, in order. -/
def Tree.tokens (t : Tree) : List Placed := t.nodes.filter (·.kind.isToken)

/-- A token is a leaf that is not empty, and no text stands beside the children of another node. -/
structure Node.Packed (n : Node) : Prop where
  token : n.kind.isToken = true → n.body.isLeaf = true ∧ n.body.text ≠ ""
  composite : n.kind.isToken = false → n.body = Content.ofNodes n.body.nodes

theorem Node.Packed.start_lt_stop {n : Placed} (h : n.toNode.Packed)
    (token : n.kind.isToken = true) : n.span.start < n.span.stop := by
  have full : n.body.width ≠ 0 := by
    rw [Content.width_eq]
    simpa using (h.token token).2
  simp only [Placed.span]
  omega

namespace Content

variable {c : Content}

/-- The siblings of a run tile it, where no text stands beside them. -/
theorem tiles_siblings (hc : c = ofNodes c.nodes) (start : Nat) (parent : Option NodeId) :
    Span.Tiles start ((c.siblings start parent).map (·.span)) (start + c.width) := by
  induction c generalizing start with
  | tail s =>
    obtain rfl : s = "" := by simpa [nodes, ofNodes] using hc
    simp [siblings, Span.Tiles, width]
  | node gap id kind body next _ ihn =>
    obtain ⟨rfl, hn⟩ : gap = "" ∧ next = ofNodes next.nodes := by
      simpa [nodes, ofNodes] using hc
    have beside := ihn hn (start + body.width)
    simp only [siblings, width, String.utf8ByteSize_empty, Nat.add_zero, Nat.zero_add,
      List.map_cons, ← Nat.add_assoc]
    exact ⟨rfl, beside⟩

/-- **The tokens of a run tile it**, where no text stands outside them. -/
theorem tiles_tokens (hc : c = ofNodes c.nodes) (hm : ∀ n ∈ c.members, n.Packed) (start : Nat)
    (parent : Option NodeId) :
    Span.Tiles start (((c.preorder start parent).filter (·.kind.isToken)).map (·.span))
      (start + c.width) := by
  induction c generalizing start parent with
  | tail s =>
    obtain rfl : s = "" := by simpa [nodes, ofNodes] using hc
    simp [preorder, Span.Tiles, width]
  | node gap id kind body next ihb ihn =>
    obtain ⟨rfl, hn⟩ : gap = "" ∧ next = ofNodes next.nodes := by
      simpa [nodes, ofNodes] using hc
    simp only [members, List.cons_append, List.mem_cons, List.mem_append] at hm
    have here : (Node.mk id kind body).Packed := hm _ (.inl rfl)
    have beside := ihn hn (fun n h => hm n (.inr (.inr h))) (start + body.width) parent
    have below : Span.Tiles start ((((⟨⟨id, kind, body⟩, start, parent⟩ : Placed) ::
        body.preorder start (some id)).filter (·.kind.isToken)).map (·.span))
        (start + body.width) := by
      cases token : kind.isToken with
      | true =>
        rw [preorder_of_isLeaf (here.token token).1]
        simp [token, Span.Tiles, Placed.span]
      | false =>
        simp only [List.filter_cons, token]
        exact ihb (here.composite token) (fun n h => hm n (.inr (.inl h))) start (some id)
    simp only [preorder, width, String.utf8ByteSize_empty, Nat.add_zero, Nat.zero_add,
      List.filter_append, List.map_append, ← Nat.add_assoc]
    exact below.append beside

end Content

namespace Placed

variable {n : Placed}

/-- The tokens of a node with children are those below it. -/
theorem tokens_eq (composite : n.kind.isToken = false) :
    n.tokens = n.descendants.filter (·.kind.isToken) := by
  rw [tokens, preorder, List.filter_cons_of_neg (by simp [composite])]

/-- The children of a node lie side by side, up to its end. -/
theorem stop_of_children (h : n.toNode.Packed) (composite : n.kind.isToken = false) {m : Placed}
    {pre post : List Placed} (split : n.children = pre ++ m :: post) :
    m.span.stop = ((post.head?).map (·.span.start)).getD n.span.stop := by
  have tiles := Content.tiles_siblings (h.composite composite) n.start (some n.id)
  rw [show n.body.siblings n.start (some n.id) = _ from split, List.map_append] at tiles
  obtain ⟨_, -, -, rest⟩ := tiles.split
  cases post with
  | nil => exact rest
  | cons m' post => exact rest.1.symm

theorem tiles_tokens (h : n.toNode.Packed) (below : ∀ m ∈ n.body.members, m.Packed)
    (composite : n.kind.isToken = false) :
    Span.Tiles n.span.start (n.tokens.map (·.span)) n.span.stop := by
  rw [tokens_eq composite]
  exact Content.tiles_tokens (h.composite composite) below n.start (some n.id)

/-- A node with children covers its tokens and nothing else. -/
theorem hull?_tokens (h : n.toNode.Packed) (below : ∀ m ∈ n.body.members, m.Packed)
    (composite : n.kind.isToken = false) (ne : n.tokens ≠ []) :
    Span.hull? (n.tokens.map (·.span)) = some n.span :=
  (tiles_tokens h below composite).hull?_eq (by simp [start_le_stop]) (by simpa using ne)

end Placed

namespace Tree

variable {t : Tree} {n : Placed}

/-- A tree without text outside its tokens. -/
structure Packed (t : Tree) : Prop where
  before : t.before = ""
  after : t.after = ""
  members : ∀ n ∈ t.content.members, n.Packed

theorem Packed.node (h : t.Packed) (hn : n ∈ t.nodes) : n.toNode.Packed :=
  h.members _ (Content.toNode_mem_members hn)

theorem Packed.below (h : t.Packed) (hn : n ∈ t.nodes) : ∀ m ∈ n.body.members, m.Packed := by
  intro m hm
  obtain ⟨p, hp, rfl⟩ := Content.exists_mem_preorder_of_mem_members hm n.start (some n.id)
  exact h.node (Content.mem_preorder_of_mem_descendants hn hp)

/-- **The tokens of a tree tile its source.** -/
theorem Packed.tiles_tokens (h : t.Packed) :
    Span.Tiles 0 (t.tokens.map (·.span)) t.source.utf8ByteSize := by
  have alone : t.content = Content.ofNodes t.content.nodes := by
    simp [content, Content.nodes, Content.ofNodes, h.before, h.after]
  have tiles := Content.tiles_tokens alone h.members 0 none
  rwa [Nat.zero_add, Content.width_eq] at tiles

/-- No token of a tree is empty. -/
theorem Packed.full (h : t.Packed) : ∀ n ∈ t.tokens, n.span.start < n.span.stop := fun _ hn =>
  (h.node (List.mem_filter.1 hn).1).start_lt_stop (List.mem_filter.1 hn).2

/-- A tree has tokens if it has text. -/
theorem Packed.tokens_eq_nil_iff (h : t.Packed) : t.tokens = [] ↔ t.source = "" := by
  have tiles := h.tiles_tokens
  constructor
  case mp =>
    intro none
    rw [none] at tiles
    exact String.utf8ByteSize_eq_zero_iff.1 tiles.symm
  case mpr =>
    intro empty
    rw [empty] at tiles
    simpa using tiles.eq_nil (by simpa using h.full)

end Tree

end SyntaxLint
