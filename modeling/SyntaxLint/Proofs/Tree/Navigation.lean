import SyntaxLint.Proofs.Tree.Children
import SyntaxLint.Proofs.Tree.Held

/-!
# Proofs — Trees — navigation

From a node of a tree one gets to the nodes below it, to those above it, and to its neighbours.
Down: pre-order lists a node and what is reached from it through lists of children.  Up: the nodes
above a node are those that it is below of.  Beside: the children of a node stand in one list, in
which the neighbours of each are next to it.

* `Placed.mem_preorder_iff_reaches`, `Placed.pairwise_start_preorder`: down.
* `Tree.Numbered.mem_ancestors_iff`: up.
* `Tree.Numbered.next?_of_getElem?`, `Tree.Numbered.next?_eq_some_iff`: beside.
* `Tree.Numbered.navigable`: all of it.
-/

namespace SyntaxLint

/-- What is reached from a node through lists of children. -/
inductive Placed.Reaches (n : Placed) : Placed → Prop where
  | refl : Reaches n n
  | child {p m : Placed} (h : Reaches n p) (hm : m ∈ p.children) : Reaches n m

namespace Content

variable {c : Content} {n m : Placed} {start : Nat} {parent : Option NodeId}

/-- What is listed of a node of a run is listed of the run. -/
theorem mem_preorder_trans (hn : n ∈ c.preorder start parent) (hm : m ∈ n.preorder) :
    m ∈ c.preorder start parent :=
  (List.mem_cons.1 hm).elim (fun e => e ▸ hn) (mem_preorder_of_mem_descendants hn)

/-- Pre-order lists siblings in their order. -/
theorem siblings_sublist_preorder (c : Content) (start : Nat) (parent : Option NodeId) :
    (c.siblings start parent).Sublist (c.preorder start parent) := by
  induction c generalizing start with
  | tail s => exact .slnil
  | node gap id kind body next _ ihn =>
    exact ((ihn _).trans (List.sublist_append_right _ _)).cons_cons _

/-- No node listed begins before one listed earlier. -/
theorem pairwise_start_preorder (c : Content) (start : Nat) (parent : Option NodeId) :
    (c.preorder start parent).Pairwise fun n m => n.start ≤ m.start := by
  induction c generalizing start parent with
  | tail s => exact .nil
  | node gap id kind body next ihb ihn =>
    have behind : ∀ m ∈ next.preorder (start + gap.utf8ByteSize + body.width) parent,
        start + gap.utf8ByteSize + body.width ≤ m.start := fun m hm => (within hm).1
    refine List.pairwise_append.2 ⟨List.pairwise_cons.2 ⟨fun m hm => (within hm).1, ihb _ _⟩,
      ihn _ _, fun n hn m hm => ?_⟩
    rcases List.mem_cons.1 hn with rfl | hn
    · exact Nat.le_trans (Nat.le_add_right _ _) (behind m hm)
    · have ends := (within hn).2
      have := behind m hm
      simp only [Placed.span] at ends
      omega

end Content

/-! ### Down -/

namespace Placed

variable {n m p : Placed}

/-- **What is listed is what is reached.** -/
theorem mem_preorder_iff_reaches : m ∈ n.preorder ↔ n.Reaches m := by
  constructor
  · intro hm
    rcases List.mem_cons.1 hm with rfl | hm
    · exact .refl
    · exact Content.preorder_induction (fun p hp m hm => .child hp hm) n.body
        (fun m hm => .child .refl hm) m hm
  · intro h
    induction h with
    | refl => exact List.mem_cons_self
    | @child p m _ hm ih =>
      rw [← n.preorder_alone] at ih ⊢
      exact Content.mem_preorder_of_mem_children ih hm

theorem mem_preorder_trans (hm : m ∈ n.preorder) (hp : p ∈ m.preorder) : p ∈ n.preorder := by
  rw [← n.preorder_alone] at hm ⊢
  exact Content.mem_preorder_trans hm hp

/-- A node comes first, then each child with all below it. -/
theorem preorder_eq_cons (n : Placed) : n.preorder = n :: n.children.flatMap preorder := by
  rw [preorder, descendants, Content.preorder_eq_flatMap_siblings, children]

/-- A node that is listed comes before its children, and these are in their order. -/
theorem cons_children_sublist_preorder (hp : p ∈ n.preorder) :
    (p :: p.children).Sublist n.preorder := by
  have here : (p :: p.children).Sublist p.preorder :=
    (p.body.siblings_sublist_preorder p.start (some p.id)).cons_cons p
  rw [← n.preorder_alone] at hp ⊢
  obtain ⟨before, after, split, -, -⟩ := Content.preorder_split hp
  rw [split, List.append_assoc]
  exact here.trans ((List.sublist_append_left _ _).trans (List.sublist_append_right _ _))

theorem pairwise_start_preorder (n : Placed) :
    n.preorder.Pairwise fun m m' => m.start ≤ m'.start := by
  rw [← n.preorder_alone]
  exact Content.pairwise_start_preorder _ _ _

/-- The descendants of a kind are what is listed behind a node and is of the kind. -/
theorem mem_descendantsOf_iff (out : n ∉ n.descendants) {kind : Kind} :
    m ∈ n.descendantsOf kind ↔ m ∈ n.preorder ∧ m ≠ n ∧ m.kind = kind := by
  rw [descendantsOf, List.mem_filter, preorder, List.mem_cons, beq_iff_eq]
  constructor
  · rintro ⟨hm, same⟩
    exact ⟨.inr hm, fun e => out (e ▸ hm), same⟩
  · rintro ⟨hm, ne, same⟩
    exact ⟨hm.resolve_left ne, same⟩

end Placed

namespace Tree

variable {t : Tree} {n m p : Placed}

theorem mem_nodes_of_mem_preorder (hn : n ∈ t.nodes) (hm : m ∈ n.preorder) : m ∈ t.nodes :=
  Content.mem_preorder_trans hn hm

/-- No node is below itself. -/
theorem Numbered.not_mem_descendants (h : t.Numbered) (hn : n ∈ t.nodes) : n ∉ n.descendants :=
  (List.nodup_cons.1 (Placed.nodup_preorder (Content.nodup_of_mem h.nodup hn))).1

/-! ### Up -/

/-- Below a node is what is below its children, and these. -/
theorem Numbered.mem_descendants_iff_of_mem_children (h : t.Numbered) (hm : m ∈ t.nodes)
    (hp : p ∈ t.nodes) (hn : n ∈ p.children) : n ∈ m.descendants ↔ m = p ∨ p ∈ m.descendants := by
  constructor
  · intro below
    rcases Content.mem_siblings_or_mem_children below with child | ⟨q, hq, child⟩
    · exact .inl (h.eq_of_mem_children hm hp child hn)
    · have hqt := Content.mem_preorder_of_mem_descendants hm hq
      exact .inr (h.eq_of_mem_children hqt hp child hn ▸ hq)
  · rintro (rfl | below)
    · exact Content.mem_preorder_of_mem_siblings hn
    · exact Content.mem_preorder_of_mem_children below hn

/-- The root is below no node. -/
theorem top_not_mem_descendants (t : Tree) (m : Placed) : t.top ∉ m.descendants := by
  intro below
  rcases Content.mem_siblings_or_mem_children below with child | ⟨q, hq, child⟩
  · simpa [top] using Content.parent_of_mem_siblings child
  · simpa [top] using Content.parent_of_mem_siblings child

/-- **The nodes above a node** are those that it is below of. -/
theorem Numbered.mem_ancestors_iff (h : t.Numbered) (hn : n ∈ t.nodes) :
    m ∈ t.ancestors n.id ↔ m ∈ t.nodes ∧ n ∈ m.descendants := by
  have all := h.ancestors_induction
    (P := fun n path => n ∈ t.nodes ∧ ∀ m, m ∈ path ↔ m ∈ t.nodes ∧ n ∈ m.descendants)
    ⟨top_mem_nodes, fun m => by
      simpa using fun _ => t.top_not_mem_descendants m⟩
    fun p path ⟨hp, above⟩ n hn => ⟨mem_nodes_of_mem_children hp hn, fun m => by
      rw [List.mem_cons, above]
      constructor
      · rintro (rfl | ⟨hm, below⟩)
        · exact ⟨hp, Content.mem_preorder_of_mem_siblings hn⟩
        · exact ⟨hm, (h.mem_descendants_iff_of_mem_children hm hp hn).2 (.inr below)⟩
      · rintro ⟨hm, below⟩
        exact ((h.mem_descendants_iff_of_mem_children hm hp hn).1 below).imp_right fun b => ⟨hm, b⟩⟩
  exact (all n hn).2 m

/-- From a node up one comes to the root in the end. -/
theorem Numbered.getLast?_ancestors (h : t.Numbered) (hn : n ∈ t.nodes) :
    (n :: t.ancestors n.id).getLast? = some t.top :=
  h.ancestors_induction (P := fun n path => (n :: path).getLast? = some t.top) rfl
    (fun p path last n _ => by rwa [List.getLast?_cons_cons]) n hn

/-! ### Beside -/

variable {i : Nat}

theorem Numbered.findIdx?_of_getElem? (h : t.Numbered) (hp : p ∈ t.nodes)
    (place : p.children[i]? = some n) : p.children.findIdx? (·.id == n.id) = some i := by
  obtain ⟨inside, here⟩ := List.getElem?_eq_some_iff.1 place
  have split : p.children = p.children.take i ++ n :: p.children.drop (i + 1) := by
    rw [← here, ← List.drop_eq_getElem_cons, List.take_append_drop]
  rw [Placed.findIdx?_children (List.nodup_cons.1 (Content.nodup_of_mem h.nodup hp)).2 split,
    List.length_take_of_le (Nat.le_of_lt inside)]

/-- The place of a child among its siblings. -/
theorem Numbered.index?_of_getElem? (h : t.Numbered) (hp : p ∈ t.nodes)
    (place : p.children[i]? = some n) : t.index? n = some i := by
  have parent := h.parent?_of_mem_children hp (List.mem_of_getElem? place)
  simp [index?, siblings, parent, h.findIdx?_of_getElem? hp place]

/-- The sibling that follows a child is the next child. -/
theorem Numbered.next?_of_getElem? (h : t.Numbered) (hp : p ∈ t.nodes)
    (place : p.children[i]? = some n) : t.next? n = p.children[i + 1]? := by
  have parent := h.parent?_of_mem_children hp (List.mem_of_getElem? place)
  simp [next?, siblings, parent, h.index?_of_getElem? hp place]

/-- The sibling that a child follows is the child before. -/
theorem Numbered.previous?_of_getElem? (h : t.Numbered) (hp : p ∈ t.nodes)
    (place : p.children[i]? = some n) :
    t.previous? n = if i = 0 then none else p.children[i - 1]? := by
  have parent := h.parent?_of_mem_children hp (List.mem_of_getElem? place)
  rw [previous?, h.index?_of_getElem? hp place]
  cases i with
  | zero => rfl
  | succ i => simp [siblings, parent]

/-- A node is the root or stands somewhere among the children of a node. -/
theorem eq_top_or_exists_getElem? (hn : n ∈ t.nodes) :
    n = t.top ∨ ∃ p ∈ t.nodes, ∃ i : Nat, p.children[i]? = some n :=
  (eq_top_or_mem_children hn).imp_right fun ⟨p, hp, child, _⟩ =>
    ⟨p, hp, List.getElem?_of_mem child⟩

theorem parent?_top (t : Tree) : t.parent? t.top = none := rfl

theorem index?_top (t : Tree) : t.index? t.top = none := rfl

theorem next?_top (t : Tree) : t.next? t.top = none := rfl

theorem previous?_top (t : Tree) : t.previous? t.top = none := rfl

/-- A node follows another if they stand side by side. -/
theorem Numbered.next?_eq_some_iff (h : t.Numbered) (hn : n ∈ t.nodes) :
    t.next? n = some m ↔
      ∃ p ∈ t.nodes, ∃ i, p.children[i]? = some n ∧ p.children[i + 1]? = some m := by
  constructor
  · intro next
    rcases eq_top_or_exists_getElem? hn with rfl | ⟨p, hp, i, place⟩
    · rw [next?_top] at next
      cases next
    · exact ⟨p, hp, i, place, h.next?_of_getElem? hp place ▸ next⟩
  · rintro ⟨p, hp, i, place, after⟩
    rw [h.next?_of_getElem? hp place, after]

theorem Numbered.previous?_eq_some_iff (h : t.Numbered) (hm : m ∈ t.nodes) :
    t.previous? m = some n ↔
      ∃ p ∈ t.nodes, ∃ i, p.children[i]? = some n ∧ p.children[i + 1]? = some m := by
  constructor
  · intro previous
    rcases eq_top_or_exists_getElem? hm with rfl | ⟨p, hp, i, place⟩
    · rw [previous?_top] at previous
      cases previous
    · rw [h.previous?_of_getElem? hp place] at previous
      cases i with
      | zero => cases previous
      | succ i => exact ⟨p, hp, i, previous, place⟩
  · rintro ⟨p, hp, i, before, place⟩
    rw [h.previous?_of_getElem? hp place]
    exact before

end Tree

/-! ### All directions -/

/-- Where one gets from a node of a tree. -/
structure Tree.Navigable (t : Tree) (n : Placed) : Prop where
  /-- the nodes listed are the node itself and all that is below it, and are alive -/
  reached : ∀ m, m ∈ n.preorder ↔ n.Reaches m
  alive : ∀ m ∈ n.preorder, t.node? m.id = some m
  /-- each is listed once, the node before its children and all below one child before the next -/
  once : (n.preorder.map (·.id)).Nodup
  nested : n.preorder = n :: n.children.flatMap Placed.preorder
  ordered : ∀ p ∈ n.preorder, (p :: p.children).Sublist n.preorder
  starts : n.preorder.Pairwise fun m m' => m.span.start ≤ m'.span.start
  /-- the nodes above it come nearest first and end at the root -/
  upward : t.ancestors n.id = (t.parent? n).elim [] fun p => p :: t.ancestors p.id
  topmost : (n :: t.ancestors n.id).getLast? = some t.top
  above : ∀ m, m ∈ t.ancestors n.id ↔ t.node? m.id = some m ∧ m ≠ n ∧ n ∈ m.preorder
  /-- it is the root, beside which there is nothing, or stands in the list of its parent -/
  beside : n = t.top ∧ t.parent? n = none ∧ t.index? n = none ∧ t.next? n = none ∧
      t.previous? n = none ∨
    ∃ p i, t.parent? n = some p ∧ p.children[i]? = some n ∧ t.index? n = some i ∧
      t.next? n = p.children[i + 1]? ∧ t.previous? n = if i = 0 then none else p.children[i - 1]?
  inverse : ∀ m ∈ t.nodes, (t.next? n = some m ↔ t.previous? m = some n) ∧
    (t.previous? n = some m ↔ t.next? m = some n)
  /-- its descendants of a kind are those listed behind it, in their order -/
  kinds : ∀ kind, (n.descendantsOf kind).Sublist n.preorder ∧
    (∀ m, m ∈ n.descendantsOf kind ↔ m ∈ n.preorder ∧ m ≠ n ∧ m.kind = kind) ∧
    n.descendant? kind = (n.descendantsOf kind).head?

/-- **Every node can be navigated from.** -/
theorem Tree.Numbered.navigable {t : Tree} {n : Placed} (h : t.Numbered) (hn : n ∈ t.nodes) :
    t.Navigable n := by
  have out := h.not_mem_descendants hn
  constructor
  case reached => exact fun m => Placed.mem_preorder_iff_reaches
  case alive => exact fun m hm => h.node?_id (mem_nodes_of_mem_preorder hn hm)
  case once =>
    rw [← n.preorder_alone, Content.ids_preorder, n.ids_alone]
    exact Content.nodup_of_mem h.nodup hn
  case nested => exact n.preorder_eq_cons
  case ordered => exact fun p hp => Placed.cons_children_sublist_preorder hp
  case starts => exact n.pairwise_start_preorder
  case upward =>
    rcases eq_top_or_mem_children hn with rfl | ⟨p, hp, child, -⟩
    · rw [parent?_top, ancestors_top]
      rfl
    · rw [h.parent?_of_mem_children hp child, h.ancestors_of_mem_children hp child]
      rfl
  case topmost => exact h.getLast?_ancestors hn
  case above =>
    intro m
    rw [h.mem_ancestors_iff hn, h.node?_eq_some_iff, Placed.preorder, List.mem_cons]
    constructor
    · rintro ⟨hm, below⟩
      exact ⟨⟨hm, rfl⟩, fun e => out (e ▸ below), .inr below⟩
    · rintro ⟨⟨hm, -⟩, ne, below⟩
      exact ⟨hm, below.resolve_left (Ne.symm ne)⟩
  case beside =>
    rcases eq_top_or_exists_getElem? hn with rfl | ⟨p, hp, i, place⟩
    · exact .inl ⟨rfl, parent?_top t, index?_top t, next?_top t, previous?_top t⟩
    · exact .inr ⟨p, i, h.parent?_of_mem_children hp (List.mem_of_getElem? place), place,
        h.index?_of_getElem? hp place, h.next?_of_getElem? hp place,
        h.previous?_of_getElem? hp place⟩
  case inverse =>
    intro m hm
    rw [h.next?_eq_some_iff hn, h.previous?_eq_some_iff hm, h.previous?_eq_some_iff hn,
      h.next?_eq_some_iff hm]
    exact ⟨.rfl, .rfl⟩
  case kinds =>
    refine fun kind => ⟨?_, fun m => Placed.mem_descendantsOf_iff out, ?_⟩
    · exact List.filter_sublist.trans (List.sublist_cons_self n n.descendants)
    · exact List.head?_filter.symm

end SyntaxLint
