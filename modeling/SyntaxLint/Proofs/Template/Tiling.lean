import SyntaxLint.Proofs.Template.Origin
import SyntaxLint.Proofs.Tree.Tiling

/-!
# Proofs — Templates — parsing without loss

The tokens of the tree of a template are the template, cut into pieces that are not empty; and every
other node covers its tokens and nothing else.  Here and in what follows from it the end of the
template must be one that offsets reach.

* `Tree.Tiled`: a tree whose tokens tile its source.
* `tiled_parse`: the tree of a template is one.
-/

namespace SyntaxLint

/-- A tree over `source` that is tiled by its tokens. -/
structure Tree.Tiled (t : Tree) (source : String) : Prop where
  text : t.source = source
  /-- tokens are leaves -/
  leaf : ∀ n ∈ t.tokens, n.isLeaf = true
  /-- tokens are not empty -/
  full : ∀ n ∈ t.tokens, n.span.start < n.span.stop
  tiles : Span.Tiles 0 (t.tokens.map (·.span)) source.utf8ByteSize
  /-- a node with tokens below it covers them and nothing else -/
  hull : ∀ n ∈ t.nodes, n.kind.isToken = false → n.tokens ≠ [] →
    Span.hull? (n.tokens.map (·.span)) = some n.span
  /-- only the root of the empty source has no tokens -/
  bare : ∀ n ∈ t.nodes, n.kind.isToken = false → (n.tokens = [] ↔ source = "" ∧ n = t.top)

namespace Template

/-! ### Tokens of made nodes -/

variable {kind : Kind} {a : Fragment}

theorem Made.isToken (h : Made kind a) : kind.isToken = false := by
  cases h with
  | attr => exact isToken_of_isAttribute (isAttribute_kindOf _)
  | element | startTag | endTag | value => rfl

/-- What is made has a token at its beginning. -/
theorem Made.exists_token (h : Made kind a) (free : NodeId) :
    ∃ n ∈ (Content.ofNodes (a.nodes free)).members, n.kind.isToken = true := by
  cases h with
  | @element tag inside =>
    refine ⟨⟨free, .tagOpen, .tail "<"⟩, ?_, rfl⟩
    simp [Content.members_ofNodes, StartTag.fragment, StartTag.below, Fragment.append,
      Fragment.node, Fragment.root, Fragment.leaf]
  | startTag => exact ⟨⟨free, .tagOpen, .tail "<"⟩, List.mem_cons_self, rfl⟩
  | endTag => exact ⟨⟨free, .tagOpen, .tail "</"⟩, List.mem_cons_self, rfl⟩
  | attr => exact ⟨⟨free, .attributeName, .tail _⟩, List.mem_cons_self, rfl⟩
  | @value v =>
    cases v with
    | quoted q s => exact ⟨⟨free, .quote, .tail _⟩, List.mem_cons_self, rfl⟩
    | bare s => exact ⟨⟨free, .valueText, .tail _⟩, List.mem_cons_self, rfl⟩

theorem packed_root (h : kind.isToken = false) (a : Fragment) (free : NodeId) :
    (a.root kind free).Packed where
  token token := by
    rw [show (a.root kind free).kind = kind from rfl, h] at token
    simp at token
  composite _ := by simp [Fragment.root]

theorem Origin.packed {n : Node} (h : Origin n) : n.Packed := by
  cases h with
  | token h full =>
    refine ⟨fun _ => ⟨rfl, by simpa using full⟩, fun composite => ?_⟩
    simp only at composite
    rw [h] at composite
    simp at composite
  | made h free => exact packed_root h.isToken _ free

/-- A node that is made has tokens below it. -/
theorem Origin.tokens_ne_nil {n : Placed} (h : Origin n.toNode)
    (composite : n.kind.isToken = false) : n.tokens ≠ [] := by
  obtain ⟨⟨id, kind, body⟩, start, parent⟩ := n
  cases h with
  | token h => simp [h] at composite
  | made made free =>
    obtain ⟨m, hm, token⟩ := made.exists_token free
    obtain ⟨p, hp, rfl⟩ := Content.exists_mem_preorder_of_mem_members hm start (some _)
    rw [Placed.tokens_eq composite]
    exact List.ne_nil_of_mem (List.mem_filter.2 ⟨hp, token⟩)

/-! ### Trees -/

theorem Forest.Proper.packed {F : Forest} (h : F.Proper) (identity : TreeId) :
    (F.tree identity).Packed := by
  refine ⟨rfl, rfl, fun n hn => ?_⟩
  rcases List.mem_cons.1 hn with rfl | hn
  · exact packed_root rfl _ 0
  · have hn := (List.mem_append.1 hn).resolve_right (by simp [Content.members])
    exact (h.all 0 n hn).packed

/-- **A template that offsets reach is parsed without loss.** -/
theorem tiled_parse {identity : TreeId} {source : String} {t : Tree}
    (short : source.utf8ByteSize < 2 ^ 32) (h : parse identity source = .ok t) :
    t.Tiled source := by
  have text := source_parse h
  obtain ⟨F, proper, rfl⟩ := exists_forest_of_parse short h
  have packed := proper.packed identity
  have root : (F.tree identity).tokens = (F.tree identity).top.tokens := by
    rw [Tree.tokens, Tree.nodes_eq, Placed.tokens]
  constructor
  case text => exact text
  case leaf =>
    intro n hn
    obtain ⟨hn, token⟩ := List.mem_filter.1 hn
    exact ((packed.node hn).token token).1
  case full => exact packed.full
  case tiles => exact text ▸ packed.tiles_tokens
  case hull =>
    exact fun n hn composite ne =>
      Placed.hull?_tokens (packed.node hn) (packed.below hn) composite ne
  case bare =>
    intro n hn composite
    constructor
    case mp =>
      intro none
      rcases proper.origin hn with rfl | origin
      · rw [← root, packed.tokens_eq_nil_iff, text] at none
        exact ⟨none, rfl⟩
      · exact absurd none (origin.tokens_ne_nil composite)
    case mpr =>
      rintro ⟨empty, rfl⟩
      rw [← root, packed.tokens_eq_nil_iff, text]
      exact empty

/-- A template with a tag that is not closed, two attributes and raw text beyond one byte a
character. -/
theorem tiled_parse_of_unclosed : ∃ t : Tree,
    parse 0 "a<b ü='' =/><title>é<p" = .ok t ∧ t.Tiled "a<b ü='' =/><title>é<p" := by
  have short : "a<b ü='' =/><title>é<p".utf8ByteSize < 2 ^ 32 := by decide
  have parsed : (parse 0 "a<b ü='' =/><title>é<p").isOk = true := by decide +kernel
  obtain ⟨t, h⟩ := exists_parse_of_isOk parsed
  exact ⟨t, h, tiled_parse short h⟩

end Template

end SyntaxLint
