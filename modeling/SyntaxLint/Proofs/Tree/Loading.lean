import SyntaxLint.Proofs.Tree.Laying
import SyntaxLint.Proofs.Tree.Refused
import SyntaxLint.Tree.Load

/-!
# Proofs — Trees — loading slots

No pass over the slots of an outline fails that the check of the outline lets through, and what is
stored is the tree that is laid over the source.

* `Arena.link_filled`: the parents.
* `Arena.Shows`: slots that say of a run of siblings what an outline says.
* `Arena.checkNodes_eq`: the stack.
* `Arena.load_eq`: loading and laying.
-/

namespace SyntaxLint

namespace Slot

variable {s : Slot} {owner : NodeId}

/-- A slot that knows its parent as soon as the slots before `owners` have told their children. -/
def told (owners : NodeId) (s : Slot) : Slot :=
  { s with parent := s.parent.filter (· < owners) }

theorem parent_told (h : s.parent = some owner) : (s.told owner).parent = none := by
  simp [told, h, Option.filter]

theorem told_zero (s : Slot) : s.told 0 = { s with parent := none } := by
  cases h : s.parent <;> simp [told, h, Option.filter]

theorem adopted_told (h : s.parent = some owner) :
    (s.told owner).adopted owner = s.told (owner + 1) := by
  simp [told, adopted, h, Option.filter]

theorem told_succ (h : s.parent ≠ some owner) : s.told (owner + 1) = s.told owner := by
  cases parent : s.parent with
  | none => simp [told, parent]
  | some p =>
    have ne : p ≠ owner := fun e => h (e ▸ parent)
    have same : p < owner + 1 ↔ p < owner :=
      ⟨fun lt => Nat.lt_of_le_of_ne (Nat.le_of_lt_succ lt) ne, Nat.lt_succ_of_lt⟩
    simp [told, parent, Option.filter, same]

theorem told_of_lt {owners : NodeId} (h : ∀ p, s.parent = some p → p < owners) :
    s.told owners = s := by
  obtain ⟨kind, span, parent, children, alive⟩ := s
  cases parent with
  | none => rfl
  | some p => simp [told, Option.filter, h p rfl]

end Slot

namespace Outline

variable {o : Outline} {free : NodeId} {parent : Option NodeId}

/-! ### What is stored -/

@[simp] theorem length_postorder_node (kind : Kind) (s : Span) (children next : Outline) :
    (node kind s children next).postorder.length =
      children.postorder.length + 1 + next.postorder.length := by
  rw [postorder, List.length_append, List.length_cons]
  omega

/-- The places of the siblings of a run that is stored from the place `free` on. -/
def places (free : NodeId) : Outline → List NodeId
  | .done => []
  | .node _ _ children next =>
    let id := free + children.postorder.length
    id :: next.places (id + 1)

/-- The slots of a run that is stored from the place `free` on below `parent`, with their places and
their parents. -/
def entries (free : NodeId) (parent : Option NodeId) : Outline → List (NodeId × Slot)
  | .done => []
  | .node kind s children next =>
    let id := free + children.postorder.length
    children.entries free (some id) ++ (id, ⟨kind, s, parent, children.places free, true⟩) ::
      next.entries (id + 1) parent

theorem map_fst_entries (o : Outline) (free : NodeId) (parent : Option NodeId) :
    (o.entries free parent).map (·.1) = List.range' free o.postorder.length := by
  induction o generalizing free parent with
  | done => rfl
  | node kind s children next ihc ihn =>
    simp only [entries, List.map_append, List.map_cons, ihc, ihn, length_postorder_node]
    rw [← List.range'_succ, List.range'_append_1]
    congr 1
    omega

/-- The siblings of a run are told the parent of the run. -/
theorem exists_of_mem_places {j : NodeId} (h : j ∈ o.places free) (parent : Option NodeId) :
    ∃ s, (j, s) ∈ o.entries free parent ∧ s.parent = parent := by
  induction o generalizing free with
  | done => simp [places] at h
  | node kind s children next _ ihn =>
    rcases List.mem_cons.1 h with rfl | h
    · exact ⟨_, List.mem_append_right _ List.mem_cons_self, rfl⟩
    · obtain ⟨s', mem, same⟩ := ihn h
      exact ⟨s', List.mem_append_right _ (List.mem_cons_of_mem _ mem), same⟩

theorem le_of_mem_places {j : NodeId} (h : j ∈ o.places free) : free ≤ j := by
  obtain ⟨s, mem, -⟩ := exists_of_mem_places h none
  have place : j ∈ (o.entries free none).map (·.1) := List.mem_map_of_mem mem
  rw [map_fst_entries] at place
  exact (List.mem_range'_1.1 place).1

theorem nodup_places (o : Outline) (free : NodeId) : (o.places free).Nodup := by
  induction o generalizing free with
  | done => exact .nil
  | node kind s children next _ ihn =>
    refine List.nodup_cons.2 ⟨fun mem => ?_, ihn _⟩
    exact Nat.not_succ_le_self _ (le_of_mem_places mem)

end Outline

namespace Arena

/-- Slots with their places, linked as those of a tree are. -/
structure Linked (es : List (NodeId × Slot)) : Prop where
  places : es.map (·.1) = List.range es.length
  down : ∀ e ∈ es, ∀ j ∈ e.2.children, ∃ s, (j, s) ∈ es ∧ s.parent = some e.1
  up : ∀ e ∈ es, ∀ i, e.2.parent = some i → ∃ s, (i, s) ∈ es ∧ e.1 ∈ s.children
  distinct : ∀ e ∈ es, e.2.children.Nodup

end Arena

theorem Outline.down_entries (o : Outline) (free : NodeId) (parent : Option NodeId) :
    ∀ e ∈ o.entries free parent, e.2.children.Nodup ∧
      ∀ j ∈ e.2.children, ∃ s, (j, s) ∈ o.entries free parent ∧ s.parent = some e.1 := by
  induction o generalizing free parent with
  | done => simp [entries]
  | node kind s children next ihc ihn =>
    intro e he
    rcases List.mem_append.1 he with he | he
    · obtain ⟨distinct, all⟩ := ihc _ _ e he
      refine ⟨distinct, fun j hj => ?_⟩
      obtain ⟨s', mem, same⟩ := all j hj
      exact ⟨s', List.mem_append_left _ mem, same⟩
    rcases List.mem_cons.1 he with rfl | he
    · refine ⟨nodup_places _ _, fun j hj => ?_⟩
      obtain ⟨s', mem, same⟩ := exists_of_mem_places hj _
      exact ⟨s', List.mem_append_left _ mem, same⟩
    · obtain ⟨distinct, all⟩ := ihn _ _ e he
      refine ⟨distinct, fun j hj => ?_⟩
      obtain ⟨s', mem, same⟩ := all j hj
      exact ⟨s', List.mem_append_right _ (List.mem_cons_of_mem _ mem), same⟩

theorem Outline.up_entries (o : Outline) (free : NodeId) (parent : Option NodeId) :
    ∀ e ∈ o.entries free parent, (e.2.parent = parent ∧ e.1 ∈ o.places free) ∨
      ∃ x ∈ o.entries free parent, e.2.parent = some x.1 ∧ e.1 ∈ x.2.children := by
  induction o generalizing free parent with
  | done => simp [entries]
  | node kind s children next ihc ihn =>
    intro e he
    rcases List.mem_append.1 he with he | he
    · refine .inr ?_
      rcases ihc _ _ e he with ⟨same, mem⟩ | ⟨x, hx, same, mem⟩
      · exact ⟨_, List.mem_append_right _ List.mem_cons_self, same, mem⟩
      · exact ⟨x, List.mem_append_left _ hx, same, mem⟩
    rcases List.mem_cons.1 he with rfl | he
    · exact .inl ⟨rfl, List.mem_cons_self⟩
    · rcases ihn _ _ e he with ⟨same, mem⟩ | ⟨x, hx, same, mem⟩
      · exact .inl ⟨same, List.mem_cons_of_mem _ mem⟩
      · exact .inr ⟨x, List.mem_append_right _ (List.mem_cons_of_mem _ hx), same, mem⟩

theorem Outline.linked_entries (o : Outline) : Arena.Linked (o.entries 0 none) where
  places := by
    have places := o.map_fst_entries 0 none
    have length := congrArg List.length places
    rw [List.length_map, List.length_range'] at length
    rw [places, length, List.range_eq_range']
  down e he := (o.down_entries 0 none e he).2
  up e he i h := by
    rcases o.up_entries 0 none e he with ⟨top, -⟩ | ⟨x, hx, same, mem⟩
    · rw [top] at h
      cases h
    · obtain rfl := Option.some.inj (same.symm.trans h)
      exact ⟨x.2, hx, mem⟩
  distinct e he := (o.down_entries 0 none e he).1

namespace Arena

variable {a : Arena} {es : List (NodeId × Slot)} {owner : NodeId}

/-! ### The parents -/

/-- The slots as they are when those below `owners` have told their children that they are their
parents. -/
def filled (source : String) (es : List (NodeId × Slot)) (owners : NodeId) : Arena :=
  ⟨source, (es.map fun e => e.2.told owners).toArray⟩

theorem slot?_filled (source : String) (es : List (NodeId × Slot)) (owners j : NodeId) :
    (filled source es owners).slot? j = es[j]?.map fun e => e.2.told owners := by
  simp [slot?, filled]

/-- Slots behind others are stored without their parents. -/
theorem push_eq (slots : Array Slot) (o : Outline) (parent : Option NodeId) :
    push slots o = (o.places slots.size,
      slots ++ ((o.entries slots.size parent).map fun e => e.2.told 0).toArray) := by
  induction o generalizing slots parent with
  | done => simp [push, Outline.places, Outline.entries]
  | node kind s children next ihc ihn =>
    have length : ∀ p, (children.entries slots.size p).length = children.postorder.length := by
      intro p
      simpa using congrArg List.length (children.map_fst_entries slots.size p)
    rw [push, ihc slots (some (slots.size + children.postorder.length))]
    simp only [ihn _ parent]
    simp [Outline.places, Outline.entries, length, Slot.told_zero, Nat.add_assoc]

theorem ext_slot? {b : Arena} (source : a.source = b.source)
    (slots : ∀ j, a.slot? j = b.slot? j) : a = b := by
  obtain ⟨text, xs⟩ := a
  obtain ⟨text', ys⟩ := b
  obtain rfl : text = text' := source
  rw [show xs = ys from Array.ext_getElem? slots]

/-- Slots without parents are told one, each once. -/
theorem exists_foldlM_adopt (owner : NodeId) {ids : List NodeId} (distinct : ids.Nodup)
    (orphans : ∀ j ∈ ids, ∃ s, a.slot? j = some s ∧ s.parent = none) :
    ∃ b, ids.foldlM (adopt owner) a = .ok b ∧ b.source = a.source ∧
      ∀ j, b.slot? j = if j ∈ ids then (a.slot? j).map (.adopted owner) else a.slot? j := by
  induction ids generalizing a with
  | nil => exact ⟨a, rfl, rfl, fun j => by simp⟩
  | cons id ids ih =>
    obtain ⟨out, distinct⟩ := List.nodup_cons.1 distinct
    obtain ⟨s, found, orphan⟩ := orphans id List.mem_cons_self
    have first : adopt owner a id = .ok (a.modify id (.adopted owner)) := by
      rw [adopt, found]
      simp [orphan]
    obtain ⟨b, rest, source, slots⟩ := ih (a := a.modify id (.adopted owner)) distinct (by
      intro j hj
      have ne : id ≠ j := fun e => out (e ▸ hj)
      rw [slot?_modify, if_neg ne]
      exact orphans j (List.mem_cons_of_mem _ hj))
    refine ⟨b, ?_, source, fun j => ?_⟩
    · rw [List.foldlM_cons, first]
      exact rest
    · rw [slots, slot?_modify]
      by_cases e : id = j
      · subst e
        rw [if_neg out, if_pos rfl, if_pos List.mem_cons_self]
      · simp only [if_neg e, List.mem_cons, Ne.symm e, false_or]

namespace Linked

variable (linked : Linked es)
include linked

theorem fst_of_getElem? {j : NodeId} {e : NodeId × Slot} (h : es[j]? = some e) : e.1 = j := by
  have place : (es.map (·.1))[j]? = some e.1 := by rw [List.getElem?_map, h]; rfl
  rw [linked.places, List.getElem?_eq_some_iff] at place
  simpa using place.2.symm

theorem getElem?_eq_some_iff {j : NodeId} {s : Slot} : es[j]? = some (j, s) ↔ (j, s) ∈ es := by
  refine ⟨List.mem_of_getElem?, fun mem => ?_⟩
  obtain ⟨i, found⟩ := List.mem_iff_getElem?.1 mem
  rwa [← linked.fst_of_getElem? found] at found

theorem unique {j : NodeId} {s s' : Slot} (h : (j, s) ∈ es) (h' : (j, s') ∈ es) : s = s' := by
  have both := (linked.getElem?_eq_some_iff.2 h).symm.trans (linked.getElem?_eq_some_iff.2 h')
  simpa using both

/-- One slot tells its children. -/
theorem linkOne_filled (source : String) (h : owner < es.length) :
    linkOne (filled source es owner) owner = .ok (filled source es (owner + 1)) := by
  obtain ⟨s, mem⟩ : ∃ s, (owner, s) ∈ es := by
    have place : owner ∈ es.map (·.1) := by rwa [linked.places, List.mem_range]
    obtain ⟨⟨i, s⟩, mem, rfl⟩ := List.mem_map.1 place
    exact ⟨s, mem⟩
  have children : ((filled source es owner).slot owner).children = s.children := by
    rw [slot, slot?_filled, linked.getElem?_eq_some_iff.2 mem]
    rfl
  -- a slot is in the list exactly if the one that is told is its parent
  have listed : ∀ {j s'}, (j, s') ∈ es → (j ∈ s.children ↔ s'.parent = some owner) := by
    intro j s' mem'
    constructor
    · intro hj
      obtain ⟨s'', there, same⟩ := linked.down _ mem j hj
      rwa [linked.unique mem' there]
    · intro same
      obtain ⟨s'', there, hj⟩ := linked.up _ mem' owner same
      rwa [linked.unique mem there]
  obtain ⟨b, done, text, slots⟩ := exists_foldlM_adopt owner (a := filled source es owner)
    (linked.distinct _ mem) (by
      intro j hj
      obtain ⟨s', there, same⟩ := linked.down _ mem j hj
      refine ⟨s'.told owner, ?_, Slot.parent_told same⟩
      rw [slot?_filled, linked.getElem?_eq_some_iff.2 there]
      rfl)
  rw [linkOne, children, done]
  refine congrArg _ (ext_slot? text fun j => ?_)
  rw [slots, slot?_filled, slot?_filled]
  cases found : es[j]? with
  | none => simp
  | some e =>
    obtain rfl := linked.fst_of_getElem? found
    have told := listed (List.mem_of_getElem? found)
    by_cases hj : e.1 ∈ s.children
    · simp [hj, Slot.adopted_told (told.1 hj)]
    · simp [hj, Slot.told_succ fun same => hj (told.2 same)]

/-- **Every slot is told its parent**, and none is told two. -/
theorem link_filled (source : String) :
    link (filled source es 0) = .ok ⟨source, (es.map (·.2)).toArray⟩ := by
  have steps : ∀ n ≤ es.length,
      (List.range n).foldlM linkOne (filled source es 0) = .ok (filled source es n) := by
    intro n le
    induction n with
    | zero => rfl
    | succ n ih =>
      rw [List.range_succ, List.foldlM_append, ih (by omega)]
      simp [bind, Except.bind, linked.linkOne_filled source le, pure, Except.pure]
  have all : filled source es es.length = ⟨source, (es.map (·.2)).toArray⟩ := by
    refine ext_slot? rfl fun j => ?_
    rw [slot?_filled]
    cases found : es[j]? with
    | none => simp [slot?, found]
    | some e =>
      have known : e.2.told es.length = e.2 := by
        refine Slot.told_of_lt fun p parent => ?_
        obtain ⟨s, mem, -⟩ := linked.up e (List.mem_of_getElem? found) p parent
        exact (List.getElem?_eq_some_iff.1 (linked.getElem?_eq_some_iff.2 mem)).1
      simp [slot?, found, known]
  have size : (filled source es 0).slots.size = es.length := by simp [filled]
  rw [link, size, steps _ (Nat.le_refl _), all]

end Linked

/-! ### The stack -/

/-- The slots of some siblings, and of what is below them, say what an outline says. -/
inductive Shows (a : Arena) : Option NodeId → List NodeId → Outline → Prop where
  | done {parent : Option NodeId} : Shows a parent [] .done
  | node {parent : Option NodeId} {id : NodeId} {ids below : List NodeId} {kind : Kind} {s : Span}
      {children next : Outline} (here : a.slot? id = some ⟨kind, s, parent, below, true⟩)
      (down : Shows a (some id) below children) (beside : Shows a parent ids next) :
      Shows a parent (id :: ids) (.node kind s children next)

variable {parent : Option NodeId} {ids : List NodeId} {o : Outline} {fuel : Nat}

theorem shows_entries {free : NodeId}
    (h : ∀ e ∈ o.entries free parent, a.slot? e.1 = some e.2) :
    a.Shows parent (o.places free) o := by
  induction o generalizing free parent with
  | done => exact .done
  | node kind s children next ihc ihn =>
    rw [Outline.entries, List.forall_mem_append, List.forall_mem_cons] at h
    obtain ⟨down, here, beside⟩ := h
    exact .node here (ihc down) (ihn beside)

/-- The slots of nodes say what the outline of the nodes says. -/
theorem shows_content {c : Content} {start : Nat}
    (h : ∀ n ∈ c.preorder start parent, a.slot? n.id = some n.slot) :
    a.Shows parent ((c.siblings start parent).map (·.id)) (c.outline start) := by
  induction c generalizing start parent with
  | tail s => exact .done
  | node gap id kind body next ihb ihn =>
    rw [Content.preorder, List.cons_append, List.forall_mem_cons, List.forall_mem_append] at h
    obtain ⟨here, down, beside⟩ := h
    exact .node here (ihb down) (ihn beside)

/-- Children are checked in order as those of the outline are. -/
theorem checkOrder_eq (h : a.Shows (some owner) ids o) (s : Slot) (cursor : Nat) :
    a.checkOrder owner s cursor ids = (o.checkOrder s.kind s.span.stop cursor).mapError .tree := by
  generalize e : some owner = parent at h
  induction h generalizing cursor with
  | done => rfl
  | @node parent id ids below kind span children next here _ _ _ ih =>
    subst e
    have live : a.live id = .ok ⟨kind, span, some owner, below, true⟩ :=
      live_eq_ok_iff.2 ⟨here, rfl⟩
    rw [checkOrder, live, Outline.checkOrder]
    simp only [ne_eq, not_true_eq_false, if_false]
    split
    · rfl
    split
    · rfl
    exact ih span.stop rfl

/-- **Siblings that are taken off the stack** are checked as the outline is, with all that is below
them, before what was on it. -/
theorem checkNodes_eq (h : a.Shows parent ids o) (enough : o.postorder.length ≤ fuel)
    (stack : List NodeId) :
    a.checkNodes fuel (ids.reverse ++ stack) = (do
      (o.check a.source).mapError .tree
      a.checkNodes (fuel - o.postorder.length) stack) := by
  induction h generalizing fuel stack with
  | done => rfl
  | @node parent id ids below kind s children next here down beside ihd ihb =>
    rw [Outline.length_postorder_node] at enough ⊢
    obtain ⟨rest, left⟩ : ∃ rest, fuel - next.postorder.length = rest + 1 :=
      ⟨fuel - next.postorder.length - 1, by omega⟩
    have count : fuel - (children.postorder.length + 1 + next.postorder.length) =
        rest - children.postorder.length := by omega
    -- the last sibling is on top: those behind the first go first
    rw [List.reverse_cons, List.append_assoc, ihb (by omega), left, List.singleton_append,
      checkNodes, slot_of_slot? here, ihd (by omega), checkOrder_eq down, count, Outline.check]
    cases next.check a.source <;> cases Outline.checkRange a.source kind s <;>
      cases children.checkOrder kind s.stop s.start <;> rfl

/-- The outline of siblings is read back. -/
theorem Shows.outlines_eq (h : a.Shows parent ids o) (enough : o.postorder.length ≤ fuel) :
    a.outlines fuel ids = o := by
  induction h generalizing fuel with
  | done => cases fuel <;> rfl
  | @node parent id ids below kind s children next here down beside ihd ihb =>
    rw [Outline.length_postorder_node] at enough
    obtain ⟨rest, rfl⟩ : ∃ rest, fuel = rest + 1 := ⟨fuel - 1, by omega⟩
    rw [outlines, slot_of_slot? here]
    have below := @ihd rest (by omega)
    have behind := @ihb rest (by omega)
    simp only [below, behind]

end Arena

/-! ### Loading -/

/-- The nodes of a run whose identities count them in post-order are stored as its outline is. -/
theorem Content.entries_outline (c : Content) (start : Nat) (parent : Option NodeId)
    (free : NodeId) (h : (c.postorder start parent).map (·.id) =
      List.range' free (c.postorder start parent).length) :
    (c.siblings start parent).map (·.id) = (c.outline start).places free ∧
    (c.postorder start parent).map (fun n => (n.id, n.slot)) =
      (c.outline start).entries free parent := by
  induction c generalizing start parent free with
  | tail s => exact ⟨rfl, rfl⟩
  | node gap id kind body next ihb ihn =>
    have length : ∀ p, (body.postorder (start + gap.utf8ByteSize) p).length =
        (body.outline (start + gap.utf8ByteSize)).postorder.length := by
      intro p
      rw [← Content.map_outline_postorder body _ p, List.length_map]
    simp only [postorder, List.map_append, List.map_cons, List.length_append, List.length_cons]
      at h
    rw [← List.range'_append_1, List.range'_succ] at h
    obtain ⟨below, behind⟩ := List.append_inj h (by simp)
    obtain ⟨here, beside⟩ := List.cons.inj behind
    have place : id = free + (body.outline (start + gap.utf8ByteSize)).postorder.length := by
      rw [← length (some id)]
      exact here
    obtain ⟨children, down⟩ := ihb _ _ _ below
    obtain ⟨siblings', on⟩ := ihn _ _ _ beside
    rw [length, ← place] at siblings' on
    constructor
    · rw [siblings, List.map_cons, siblings', outline, Outline.places, ← place]
    · rw [postorder, List.map_append, List.map_cons, down, on, outline, Outline.entries, ← place]
      simp only [Placed.slot, Placed.children, Placed.span, children]

/-- The outline of a node as the only node of a run. -/
def OutlineNode.alone (n : OutlineNode) : Outline := .node n.kind n.span n.children .done

namespace Arena

variable {t : Tree} {a : Arena} {source : String} {n : OutlineNode}

/-- The slots of an outline over a source, each with its parent. -/
def laid (source : String) (n : OutlineNode) : Arena :=
  ⟨source, ((n.alone.entries 0 none).map (·.2)).toArray⟩

theorem slot?_laid (source : String) (n : OutlineNode) (j : NodeId) :
    (laid source n).slot? j = (n.alone.entries 0 none)[j]?.map (·.2) := by
  simp [slot?, laid]

theorem slot?_laid_of_mem (source : String) {e : NodeId × Slot} (h : e ∈ n.alone.entries 0 none) :
    (laid source n).slot? e.1 = some e.2 := by
  rw [slot?_laid, n.alone.linked_entries.getElem?_eq_some_iff.2 h]
  rfl

theorem size_laid (source : String) (n : OutlineNode) :
    (laid source n).slots.size = n.postorder.length := by
  have h := congrArg List.length (n.alone.map_fst_entries 0 none)
  simpa [laid, OutlineNode.alone, Outline.postorder, OutlineNode.postorder] using h

/-- The slots of a tree whose identities count its nodes in post-order are those of its outline. -/
theorem laid_outline (numbered : t.Numbered)
    (ids : t.postorder.map (·.id) = List.range t.postorder.length)
    (root : t.root.id + 1 = t.postorder.length) : laid t.source t.outline = t.arena := by
  have entries : t.postorder.map (fun m => (m.id, m.slot)) = t.outline.alone.entries 0 none := by
    refine (Content.entries_outline t.content 0 none 0 ?_).2.trans ?_
    · rw [← List.range_eq_range']
      exact ids
    · simp [Tree.content, Content.outline, Tree.outline, Tree.top, Placed.span, OutlineNode.alone]
  refine ext_slot? rfl fun j => ?_
  have found := numbered.node?_eq_getElem? ids j
  rw [slot?_laid, ← entries, List.getElem?_map, slot?, Tree.arena, Array.getElem?_map,
    Array.getElem?_range, root]
  split
  case isTrue lt => simp [found, List.getElem?_eq_getElem lt]
  case isFalse ge => simp [List.getElem?_eq_none (Nat.le_of_not_lt ge)]

/-- The slots of an outline that is laid over a source are those of the tree. -/
theorem laid_eq_arena {identity : TreeId} (h : Tree.ofOutline identity source n = .ok t) :
    laid source n = t.arena := by
  obtain ⟨text, outline, ids, root⟩ := Tree.of_ofOutline h
  have count : t.postorder.length = n.postorder.length := by
    simpa using congrArg List.length ids
  rw [← text, ← outline]
  exact laid_outline (Tree.numbered_ofOutline h) (by rw [ids, count]) (by rw [root, count])

/-- The slots of an outline pass when the outline does. -/
theorem validate_laid (source : String) (n : OutlineNode) :
    (laid source n).validate n.children.postorder.length = (n.check source).mapError .tree := by
  have shows := shows_entries fun e he => slot?_laid_of_mem source (n := n) (e := e) he
  have root := slot?_laid_of_mem source (n := n) (List.mem_append_right _ List.mem_cons_self)
  have size : (laid source n).slots.size = n.alone.postorder.length := by
    rw [size_laid]
    simp [OutlineNode.alone, OutlineNode.postorder, Outline.postorder]
  have walked := checkNodes_eq shows (Nat.le_of_eq size.symm) []
  rw [Nat.zero_add] at root
  simp only [OutlineNode.alone, Outline.places, Nat.zero_add] at walked
  rw [validate, root]
  refine walked.trans ?_
  have text : (laid source n).source = source := rfl
  rw [text, OutlineNode.check]
  cases (Outline.node n.kind n.span n.children .done).check source <;> simp [checkNodes] <;> rfl

/-- What is stored of an outline before any slot is told its parent, and the place of its root. -/
theorem push_children (source : String) (n : OutlineNode) :
    (push #[] n.children).2.size = n.children.postorder.length ∧
      (⟨source, (push #[] n.children).2.push
        ⟨n.kind, n.span, none, (push #[] n.children).1, true⟩⟩ : Arena) =
      filled source (n.alone.entries 0 none) 0 := by
  have h : ([_], _) = (n.alone.places 0, _) := push_eq #[] n.alone none
  obtain ⟨places, slots⟩ := Prod.mk.inj h
  refine ⟨?_, congrArg (Arena.mk source) (slots.trans (Array.empty_append ..))⟩
  simpa [OutlineNode.alone, Outline.places] using places

/-- **An outline is loaded as it is laid over its source**, and refused for the same reason. -/
theorem load_eq (identity : TreeId) (source : String) (n : OutlineNode) : load source n =
    ((Tree.ofOutline identity source n).map fun t => (t.arena, t.root.id)).mapError .tree := by
  obtain ⟨root, slots⟩ := push_children source n
  rw [load]
  simp only [root, slots, n.alone.linked_entries.link_filled source]
  have loaded : (⟨source, ((n.alone.entries 0 none).map (·.2)).toArray⟩ : Arena) =
    laid source n := rfl
  simp only [bind, Except.bind, loaded, validate_laid, pure, Except.pure]
  cases laying : Tree.ofOutline identity source n with
  | error e =>
    rw [Tree.ofOutline_eq_error_iff.1 laying]
    rfl
  | ok t =>
    have last : n.children.postorder.length = t.root.id := by
      have h := (Tree.of_ofOutline laying).2.2.2
      simp [OutlineNode.postorder] at h
      exact h.symm
    rw [Tree.exists_ofOutline_iff.1 ⟨t, laying⟩, laid_eq_arena laying, last]
    rfl

/-- **The outline of a tree is read back from the slots of its nodes.** -/
theorem Holds.outline_eq (held : a.Holds t) (ht : t.Numbered) :
    a.outline t.root.id = t.outline := by
  have root : a.slot t.root.id = t.top.slot :=
    slot_of_slot? (held.slots t.top Tree.top_mem_nodes)
  have shows : a.Shows (some t.root.id) (t.top.children.map (·.id))
      (t.root.body.outline t.top.start) :=
    shows_content fun n hn => held.slots n (by
      rw [Tree.nodes_eq]
      exact List.mem_cons_of_mem _ hn)
  have enough : (t.root.body.outline t.top.start).postorder.length ≤ a.slots.size := by
    have size := held.size_le ht
    have count := congrArg List.length t.map_outline_postorder
    have perm := (Content.postorder_perm_preorder t.content 0 none).length_eq
    rw [Tree.size_eq_length_nodes] at size
    simp [OutlineNode.postorder, Tree.outline, Placed.span, Tree.postorder, Tree.nodes] at *
    omega
  rw [outline, root]
  exact congrArg (OutlineNode.mk _ _) (shows.outlines_eq enough)

/-- What is made of an outline in slots: what is made of it as a tree, from which the outline is
read back. -/
structure Loads (source : String) (n : OutlineNode) (made : Except Fault (Arena × NodeId)) :
    Prop where
  tree : ∀ identity, made =
    ((Tree.ofOutline identity source n).map fun t => (t.arena, t.root.id)).mapError .tree
  source : ∀ a root, made = .ok (a, root) → a.source = source
  outline : ∀ a root, made = .ok (a, root) → a.outline root = n

theorem loads (source : String) (n : OutlineNode) : Loads source n (load source n) := by
  have made : ∀ a root, load source n = .ok (a, root) →
      ∃ t, Tree.ofOutline 0 source n = .ok t ∧ a = t.arena ∧ root = t.root.id := by
    intro a root h
    rw [load_eq 0] at h
    cases laying : Tree.ofOutline 0 source n with
    | error e =>
      rw [laying] at h
      cases h
    | ok t =>
      rw [laying] at h
      cases h
      exact ⟨t, rfl, rfl, rfl⟩
  constructor
  case tree => exact fun identity => load_eq identity source n
  case source =>
    intro a root h
    obtain ⟨t, laying, rfl, rfl⟩ := made a root h
    exact (Tree.of_ofOutline laying).1
  case outline =>
    intro a root h
    obtain ⟨t, laying, rfl, rfl⟩ := made a root h
    have numbered := Tree.numbered_ofOutline laying
    rw [(holds_arena numbered).outline_eq numbered]
    exact (Tree.of_ofOutline laying).2.1

/-- The outline of a tree is loaded. -/
theorem exists_load_outline (t : Tree) :
    ∃ b root, load t.source t.outline = .ok (b, root) ∧ b.source = t.source ∧
      b.outline root = t.outline := by
  obtain ⟨u, laying, -, -⟩ := Tree.exists_ofOutline_outline 0 t
  have loaded : load t.source t.outline = .ok (u.arena, u.root.id) := by
    rw [load_eq 0, laying]
    rfl
  exact ⟨_, _, loaded, (loads _ _).source _ _ loaded, (loads _ _).outline _ _ loaded⟩

end Arena

/-- **Outlines are laid over a source or refused as their ranges demand, and loaded in slots just
so.**  The outline of every tree is laid over the source of the tree; and that of what edits leave
in slots, dead ones among them, is the one of the tree they hold and is loaded again. -/
theorem Tree.laid_ofOutline :
    (∀ identity source n, Laid source n (ofOutline identity source n) ∧
      Arena.Loads source n (Arena.load source n)) ∧
    (∀ identity (t : Tree), ∃ u, ofOutline identity t.source t.outline = .ok u ∧
      u.source = t.source ∧ u.outline = t.outline) ∧
    ∀ a : Arena, a.Reachable → ∃ t : Tree, t.Reachable ∧ a.Holds t ∧
      a.outline t.root.id = t.outline ∧
      ∃ b root, Arena.load a.source (a.outline t.root.id) = .ok (b, root) ∧
        b.source = a.source ∧ b.outline root = a.outline t.root.id := by
  refine ⟨fun identity source n => ⟨laid identity source n, Arena.loads source n⟩,
    exists_ofOutline_outline, fun a h => ?_⟩
  obtain ⟨t, reachable, held⟩ := h.exists_holds
  have outline := held.outline_eq reachable.numbered
  refine ⟨t, reachable, held, outline, ?_⟩
  rw [outline, held.source]
  exact Arena.exists_load_outline t

/-- An outline that is loaded, and what is loaded again once the first child is removed: the slots
of the child and of the text in it are left behind. -/
theorem Tree.laid_ofOutline_of_removed :
    let n : OutlineNode := ⟨.document, ⟨0, 3⟩, .node .element ⟨0, 1⟩
      (.node .text ⟨0, 1⟩ .done .done) (.node .text ⟨1, 3⟩ .done .done)⟩
    let m : OutlineNode := ⟨.document, ⟨0, 2⟩, .node .text ⟨0, 2⟩ .done .done⟩
    let b : Arena := ⟨"bc", #[⟨.text, ⟨0, 2⟩, some 1, [], true⟩,
      ⟨.document, ⟨0, 2⟩, none, [0], true⟩]⟩
    ∃ a, Arena.load "abc" n = .ok (a, 3) ∧ a.outline 3 = n ∧
      let c := (a.edit (.remove 3 1 1)).arena
      c.Reachable ∧ c = ⟨"bc", #[⟨.text, ⟨0, 1⟩, some 1, [], false⟩,
        ⟨.element, ⟨0, 1⟩, some 3, [0], false⟩, ⟨.text, ⟨0, 2⟩, some 3, [], true⟩,
        ⟨.document, ⟨0, 2⟩, none, [2], true⟩]⟩ ∧
      c.outline 3 = m ∧ Arena.load c.source (c.outline 3) = .ok (b, 1) ∧
      (∃ t : Tree, t.Reachable ∧ c.Holds t ∧ c.outline t.root.id = t.outline) ∧
      b.outline 1 = m := by
  intro n m b
  obtain ⟨outlines, -, arenas⟩ := laid_ofOutline
  have laid : ofOutline 0 "abc" n = .ok ⟨0, "", ⟨3, .document, .node "" 1 .element
      (.node "" 0 .text (.tail "a") (.tail "")) (.node "" 2 .text (.tail "bc") (.tail ""))⟩,
      ""⟩ := by decide +kernel
  have loaded := (outlines 0 "abc" n).2.tree 0
  rw [laid] at loaded
  refine ⟨_, loaded, (outlines 0 "abc" n).2.outline _ _ loaded, ?_⟩
  intro c
  have reachable : c.Reachable := .edit (.new (.stored laid)) (.remove 3 1 1)
  have stored : c = ⟨"bc", #[⟨.text, ⟨0, 1⟩, some 1, [], false⟩,
      ⟨.element, ⟨0, 1⟩, some 3, [0], false⟩, ⟨.text, ⟨0, 2⟩, some 3, [], true⟩,
      ⟨.document, ⟨0, 2⟩, none, [2], true⟩]⟩ := by decide +kernel
  have outline : c.outline 3 = m := by rw [stored]; decide +kernel
  have again : Arena.load c.source (c.outline 3) = .ok (b, 1) := by
    rw [outline, stored]
    decide +kernel
  obtain ⟨t, there, held, same, -⟩ := arenas c reachable
  refine ⟨reachable, stored, outline, again, ⟨t, there, held, same⟩, ?_⟩
  exact (outlines 0 c.source m).2.outline b 1 (outline ▸ again)

end SyntaxLint
