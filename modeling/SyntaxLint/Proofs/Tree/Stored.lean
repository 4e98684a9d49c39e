import SyntaxLint.Proofs.Json.Reading
import SyntaxLint.Proofs.Tree.Depth
import SyntaxLint.Proofs.Tree.Laying
import SyntaxLint.Tree.Encoding

/-!
# Proofs — Trees — documents

A document that is written is read again, if its offsets fit 32 bits and its nodes are not nested
deeper than the reader goes: each node takes two of the arrays and objects that may stand around a
value, one for itself and one for its children.  What is read is never nested deeper than that.

* `Document.Writable`: the documents that are read again.
* `Document.Writable.ofText?_toText`: they are.
* `Document.bounded_of_ofText?`: what is read.
-/

namespace SyntaxLint

/-- The nodes of a run are those of the run of its nodes. -/
@[simp] theorem Outline.ofNodes_nodes (o : Outline) : ofNodes o.nodes = o := by
  induction o with
  | done => rfl
  | node kind s children next _ ihn => rw [nodes, ofNodes, ihn]

theorem Kind.ofName?_name (k : Kind) : ofName? k.name = some k := by
  cases k <;> decide

/-- A range whose ends fit 32 bits. -/
structure Span.Words (s : Span) : Prop where
  start : s.start < 2 ^ 32
  stop : s.stop < 2 ^ 32

theorem Span.Words.plain_toPair {s : Span} (h : s.Words) : s.toPair.Plain := by
  obtain ⟨start, stop⟩ := h
  exact ⟨Json.Number.exact_nat (by omega), Json.Number.exact_nat (by omega), trivial⟩

namespace Outline

variable {b : Nat} {o : Outline}

/-! ### Nodes -/

theorem ofJson?_toJson (k : Kind) (b : Nat) : Kind.ofJson? b k.toJson = some k := by
  rw [Kind.ofJson?, Kind.toJson, Json.asName?, Option.bind_some, Kind.ofName?_name]

theorem pair?_toPair {s : Span} (h : s.Words) (b : Nat) : pair? (b + 1) s.toPair = some s := by
  obtain ⟨start, stop⟩ := h
  have word : ∀ {n : Nat}, n < 2 ^ 32 → (Json.nat n).asWord? = some n := fun h => by
    rw [Json.asWord?, Json.asNat?_nat]
    exact if_pos h
  rw [Span.toPair, pair?, word start, word stop]
  rfl

/-- The fields of a node, of which the children may be left out. -/
def members (kind : Kind) (s : Span) (items : List Json) : List (String × Json) :=
  ("type", kind.toJson) :: ("range", s.toPair) ::
    match items with
    | [] => []
    | items => [("children", .array items)]

theorem toItems_node (kind : Kind) (s : Span) (children next : Outline) :
    (node kind s children next).toItems =
      .object (members kind s children.toItems) :: next.toItems := by
  rw [toItems]
  rfl

theorem fields?_members (kind : Kind) (s : Span) (items : List Json) :
    (Json.object (members kind s items)).fields? ["type", "range", "children"] =
      some ⟨false, [some kind.toJson, some s.toPair,
        if items.isEmpty then none else some (.array items)]⟩ := by
  cases items <;> rfl

/-- A node is read with the children that its items are read as. -/
theorem node?_members {kind : Kind} {s : Span} {items : List Json} {nodes : List OutlineNode}
    (h : s.Words) (below : items.mapM (node? b) = some nodes) :
    node? (b + 2) (.object (members kind s items)) = some ⟨kind, s, ofNodes nodes⟩ := by
  have kind' : Json.required (Kind.ofJson? (b + 1)) (some kind.toJson) = some kind := by
    rw [Json.required, Option.bind_some, ofJson?_toJson]
  have range : Json.required (pair? (b + 1)) (some s.toPair) = some s := by
    rw [Json.required, Option.bind_some, pair?_toPair h]
  have children : Json.defaulted [] (nodes? (b + 1))
      (if items.isEmpty then none else some (.array items)) = some nodes := by
    cases items with
    | nil => exact below
    | cons v more => exact below
  rw [node?, fields?_members]
  simp only [Option.bind_eq_bind, Option.bind_some, kind', range, children]
  rfl

theorem mapM_node?_toItems (deep : 2 * o.depth ≤ b) (words : ∀ m ∈ o.postorder, m.span.Words) :
    o.toItems.mapM (node? b) = some o.nodes := by
  induction o generalizing b with
  | done => rfl
  | node kind s children next ihc ihn =>
    rw [depth] at deep
    obtain ⟨b, rfl⟩ : ∃ b', b = b' + 2 := ⟨b - 2, by omega⟩
    rw [postorder, List.forall_mem_append, List.forall_mem_cons] at words
    obtain ⟨below, here, beside⟩ := words
    have inner : children.toItems.mapM (node? b) = some children.nodes := ihc (by omega) below
    rw [toItems_node, List.mapM_cons, node?_members here inner, ihn (by omega) beside,
      ofNodes_nodes]
    rfl

theorem plain_toItems (words : ∀ m ∈ o.postorder, m.span.Words) : Json.ArePlain o.toItems := by
  induction o with
  | done => trivial
  | node kind s children next ihc ihn =>
    rw [postorder, List.forall_mem_append, List.forall_mem_cons] at words
    obtain ⟨below, here, beside⟩ := words
    have range : s.toPair.Plain := Span.Words.plain_toPair here
    have inner := ihc below
    rw [toItems_node]
    refine ⟨?_, ihn beside⟩
    cases items : children.toItems with
    | nil => exact ⟨trivial, range, trivial⟩
    | cons v more => exact ⟨trivial, range, items ▸ inner, trivial⟩

/-! ### Depth -/

theorem depth_ofNodes_le {nodes : List OutlineNode} {d : Nat} (h : ∀ n ∈ nodes, n.depth ≤ d) :
    (ofNodes nodes).depth ≤ d := by
  induction nodes with
  | nil => exact Nat.zero_le d
  | cons n nodes ih =>
    rw [List.forall_mem_cons] at h
    exact Nat.max_le.2 ⟨h.1, ih h.2⟩

/-- What is read item by item. -/
theorem forall_of_mapM {α β : Type} {f : α → Option β} {P : β → Prop}
    (hf : ∀ a b, f a = some b → P b) {as : List α} {bs : List β} (h : as.mapM f = some bs) :
    ∀ b ∈ bs, P b := by
  induction as generalizing bs with
  | nil =>
    obtain rfl : [] = bs := by simpa using h
    simp
  | cons a as ih =>
    rw [List.mapM_cons] at h
    obtain ⟨b, hb, h⟩ := Option.bind_eq_some_iff.1 h
    obtain ⟨bs', hbs, h⟩ := Option.bind_eq_some_iff.1 h
    cases h
    exact List.forall_mem_cons.2 ⟨hf a b hb, ih hbs⟩

/-- Of what a node is read.  The range alone takes a level, and the children two. -/
theorem exists_of_node? {v : Json} {n : OutlineNode} (h : node? b v = some n) :
    ∃ c range children nodes, b = c + 2 ∧ pair? (c + 1) range = some n.span ∧
      Json.defaulted [] (nodes? (c + 1)) children = some nodes ∧ n.children = ofNodes nodes := by
  cases b with
  | zero => cases h
  | succ b =>
    rw [node?] at h
    obtain ⟨fields, -, h⟩ := Option.bind_eq_some_iff.1 h
    split at h
    case h_2 => cases h
    case h_1 kind range children _ =>
      obtain ⟨k, -, h⟩ := Option.bind_eq_some_iff.1 h
      obtain ⟨s, pair, h⟩ := Option.bind_eq_some_iff.1 h
      obtain ⟨nodes, inner, h⟩ := Option.bind_eq_some_iff.1 h
      cases h
      obtain ⟨v, -, pair⟩ := Option.bind_eq_some_iff.1 pair
      cases b with
      | zero => cases pair
      | succ c => exact ⟨c, v, children, nodes, rfl, pair, inner, rfl⟩

theorem words_of_pair? {v : Json} {s : Span} (h : pair? b v = some s) : s.Words := by
  unfold pair? at h
  split at h
  case h_1 => cases h
  case h_3 => cases h
  case h_2 start stop =>
    obtain ⟨x, hx, h⟩ := Option.bind_eq_some_iff.1 h
    obtain ⟨y, hy, h⟩ := Option.bind_eq_some_iff.1 h
    obtain rfl := Option.some.inj h
    exact ⟨Json.lt_of_asNat? hx, Json.lt_of_asNat? hy⟩

/-- **What is read** takes two levels for each node below another. -/
theorem depth_of_node? {v : Json} {n : OutlineNode} (h : node? b v = some n) :
    2 * n.depth ≤ b := by
  induction b using Nat.strongRecOn generalizing v n with
  | ind b ih =>
    obtain ⟨c, -, children, nodes, rfl, -, inner, below⟩ := exists_of_node? h
    have shallow : ∀ n ∈ nodes, n.depth ≤ c / 2 := by
      cases children with
      | none =>
        obtain rfl : [] = nodes := by simpa [Json.defaulted] using inner
        simp
      | some v =>
        cases v with
        | array items =>
          refine forall_of_mapM (fun v n hn => ?_) inner
          have := ih c (by omega) hn
          omega
        | _ => cases inner
    have := depth_ofNodes_le shallow
    rw [OutlineNode.depth, below]
    omega

/-- A node is read with the items of its children. -/
theorem exists_of_node?_members {kind : Kind} {s : Span} {items : List Json} {n : OutlineNode}
    (h : node? b (.object (members kind s items)) = some n) :
    ∃ c nodes, b = c + 2 ∧ items.mapM (node? c) = some nodes := by
  cases b with
  | zero => cases h
  | succ b =>
    rw [node?, fields?_members] at h
    simp only [Option.bind_eq_bind, Option.bind_some] at h
    obtain ⟨k, -, h⟩ := Option.bind_eq_some_iff.1 h
    obtain ⟨s', range, h⟩ := Option.bind_eq_some_iff.1 h
    obtain ⟨nodes, inner, -⟩ := Option.bind_eq_some_iff.1 h
    cases b with
    | zero => simp [Json.required, pair?] at range
    | succ c =>
      refine ⟨c, nodes, rfl, ?_⟩
      cases items with
      | nil => exact inner
      | cons v more => exact inner

/-- **What is written and read again** takes two levels for each node below another. -/
theorem depth_of_toItems {o : Outline} {nodes : List OutlineNode}
    (h : o.toItems.mapM (node? b) = some nodes) : 2 * o.depth ≤ b := by
  induction o generalizing b nodes with
  | done => exact Nat.zero_le b
  | node kind s children next ihc ihn =>
    rw [toItems_node, List.mapM_cons] at h
    obtain ⟨n, here, h⟩ := Option.bind_eq_some_iff.1 h
    obtain ⟨more, beside, -⟩ := Option.bind_eq_some_iff.1 h
    obtain ⟨c, inner, rfl, below⟩ := exists_of_node?_members here
    have down := ihc below
    have on := ihn beside
    rw [depth]
    omega

end Outline

/-! ### Documents -/

theorem OutlineNode.toJson_eq (n : OutlineNode) :
    n.toJson = .object (Outline.members n.kind n.span n.children.toItems) := by
  rw [toJson, Outline.toItems_node]

namespace Document

variable {d : Document}

/-- A document whose offsets fit 32 bits, with two levels for each node below another. -/
structure Writable (d : Document) : Prop where
  words : ∀ m ∈ d.root.postorder, m.span.Words
  depth : 2 * d.root.depth < Json.maxNesting

/-- A document whose offsets fit 32 bits is written without doubles. -/
theorem plain_toJson (words : ∀ m ∈ d.root.postorder, m.span.Words) : d.toJson.Plain := by
  have root : (Outline.node d.root.kind d.root.span d.root.children .done).toItems =
      [d.root.toJson] := by rw [Outline.toItems_node, OutlineNode.toJson_eq]; rfl
  have items := Outline.plain_toItems (o := .node d.root.kind d.root.span d.root.children .done)
    words
  rw [root] at items
  exact ⟨trivial, items.1, trivial⟩

theorem Writable.ofJson?_toJson (h : d.Writable) :
    ofJson? Json.maxNesting d.toJson = some d := by
  obtain ⟨words, depth⟩ := h
  obtain ⟨source, kind, s, children⟩ := d
  rw [OutlineNode.postorder, List.forall_mem_append, List.forall_mem_singleton] at words
  have depth : 2 * (children.depth + 1) < 127 := depth
  have inner : children.toItems.mapM (Outline.node? 124) = some children.nodes :=
    Outline.mapM_node?_toItems (by omega) words.1
  have root : Outline.node? 126 (OutlineNode.toJson ⟨kind, s, children⟩) =
      some ⟨kind, s, children⟩ := by
    rw [OutlineNode.toJson_eq, Outline.node?_members words.2 inner, Outline.ofNodes_nodes]
  have fields : (toJson ⟨source, kind, s, children⟩).fields? ["source", "tree"] =
      some ⟨false, [some (.string source), some (OutlineNode.toJson ⟨kind, s, children⟩)]⟩ := rfl
  rw [Json.maxNesting, ofJson?, fields]
  simp only [Option.bind_eq_bind, Option.bind_some, Json.required, Json.asString?, root]
  rfl

/-- **A document is read as it is written**, with a line break at the end of the text. -/
theorem Writable.ofText?_toText (h : d.Writable) : ofText? (d.toText ++ "\n") = some d := by
  rw [ofText?, toText, Json.read_pretty (plain_toJson h.words), Option.bind_some,
    h.ofJson?_toJson]

/-- **What is read can be written**, as far as its depth and the range of its root go. -/
theorem bounded_of_ofText? {text : String} (h : ofText? text = some d) :
    2 * d.root.depth < Json.maxNesting ∧ d.root.span.Words := by
  obtain ⟨v, -, h⟩ := Option.bind_eq_some_iff.1 h
  rw [Json.maxNesting, ofJson?] at h
  obtain ⟨fields, -, h⟩ := Option.bind_eq_some_iff.1 h
  split at h
  case h_2 => cases h
  case h_1 source tree _ =>
    obtain ⟨s, -, h⟩ := Option.bind_eq_some_iff.1 h
    obtain ⟨n, root, h⟩ := Option.bind_eq_some_iff.1 h
    cases h
    obtain ⟨v, -, read⟩ := Option.bind_eq_some_iff.1 root
    obtain ⟨c, range, -, -, -, pair, -, -⟩ := Outline.exists_of_node? read
    exact ⟨Nat.lt_succ_of_le (Outline.depth_of_node? read), Outline.words_of_pair? pair⟩

/-- **What is written is not read** if it is nested deeper than the reader goes. -/
theorem depth_of_ofText?_toText (words : ∀ m ∈ d.root.postorder, m.span.Words) {e : Document}
    (h : ofText? (d.toText ++ "\n") = some e) : 2 * d.root.depth < Json.maxNesting := by
  rw [ofText?, toText, Json.read_pretty (plain_toJson words), Option.bind_some] at h
  obtain ⟨source, kind, s, children⟩ := d
  have fields : (toJson ⟨source, kind, s, children⟩).fields? ["source", "tree"] =
      some ⟨false, [some (.string source), some (OutlineNode.toJson ⟨kind, s, children⟩)]⟩ := rfl
  rw [Json.maxNesting, ofJson?, fields] at h
  simp only [Option.bind_eq_bind, Option.bind_some] at h
  obtain ⟨text, -, h⟩ := Option.bind_eq_some_iff.1 h
  obtain ⟨n, root, -⟩ := Option.bind_eq_some_iff.1 h
  rw [Json.required, Option.bind_some, OutlineNode.toJson_eq] at root
  obtain ⟨c, nodes, levels, below⟩ := Outline.exists_of_node?_members root
  have deep : 2 * children.depth ≤ c := Outline.depth_of_toItems below
  change 2 * (children.depth + 1) < 127
  omega

end Document

namespace Tree

variable {t : Tree}

/-- The ranges of a tree fit 32 bits when the root ends in time. -/
theorem words_of_mem_nodes (h : t.top.span.stop < 2 ^ 32) {n : Placed} (hn : n ∈ t.nodes) :
    n.span.Words := by
  have within : n.span.stop ≤ t.top.span.stop := by
    rw [nodes_eq] at hn
    rcases List.mem_cons.1 hn with rfl | hn
    · exact Nat.le_refl _
    · exact (Content.within hn).2
  have stop : n.span.stop < 2 ^ 32 := Nat.lt_of_le_of_lt within h
  exact ⟨Nat.lt_of_le_of_lt (Nat.le_add_right _ _) stop, stop⟩

theorem words_outline (h : t.top.span.stop < 2 ^ 32) : ∀ m ∈ t.outline.postorder, m.span.Words := by
  rw [← map_outline_postorder]
  intro m hm
  obtain ⟨n, hn, rfl⟩ := List.mem_map.1 hm
  exact words_of_mem_nodes h (mem_postorder_iff.1 hn)

end Tree

end SyntaxLint
