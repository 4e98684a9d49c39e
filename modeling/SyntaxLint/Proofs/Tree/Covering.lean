import Mathlib.Data.List.Find
import SyntaxLint.Proofs.Fixing.Reachable
import SyntaxLint.Proofs.Tree.Navigation
import SyntaxLint.Tree.Links

/-!
# Proofs — Trees — the node that covers an offset

The node that covers an offset is found from the root down: of the children of a node the first is
taken that contains the offset, until there is none.  Children lie within their parent and beside
each other, so no node that contains the offset is missed: it is the one that is found or one of
those above it.  The root covers its own end too, which is within none of the nodes below it.

* `Placed.deepest_eq`: the descent, from a node to one of its children.
* `Placed.innermost_of_deepest`: what is found in a run.
* `Tree.Covers`: the deepest of the nodes that contain an offset.
* `Tree.covering_of_reachable`: it is what is found.
-/

namespace SyntaxLint

/-- A node that contains an offset, or the root, and above or at which are all nodes that contain
it. -/
structure Tree.Covers (t : Tree) (offset : Nat) (n : Placed) : Prop where
  alive : n ∈ t.nodes
  contains : n = t.top ∨ n.span.contains offset = true
  deepest : ∀ m ∈ t.nodes, m.span.contains offset = true → m = n ∨ m ∈ t.ancestors n.id

variable {t : Tree} {a : Arena} {n m : Placed} {c : Content} {start offset : Nat}
  {parent : Option NodeId}

namespace Placed

theorem contains_iff : n.span.contains offset = true ↔ n.start ≤ offset ∧ offset < n.span.stop := by
  simp only [Span.contains, Bool.and_eq_true, decide_eq_true_eq]
  rfl

/-- What contains an offset below a node is within the node. -/
theorem contains_of_mem_descendants (hm : m ∈ n.descendants)
    (inside : m.span.contains offset = true) : n.span.contains offset = true := by
  rw [contains_iff] at inside ⊢
  obtain ⟨first, last⟩ := Content.within hm
  exact ⟨Nat.le_trans first inside.1, Nat.lt_of_lt_of_le inside.2 last⟩

/-- **The descent**: of some siblings the first that contains the offset, or what is found below
it. -/
theorem deepest_eq (c : Content) : deepest offset start parent c =
    ((c.siblings start parent).find? (·.span.contains offset)).map fun n =>
      (deepest offset n.start (some n.id) n.body).getD n := by
  induction c generalizing start with
  | tail s => rfl
  | node gap id kind body next _ ihn =>
    rw [deepest, Content.siblings, List.find?_cons]
    split <;> rename_i inside
    · rw [inside]
      rfl
    · rw [Bool.eq_false_iff.2 inside]
      exact ihn

/-- Nothing is found where no node contains the offset. -/
theorem deepest_eq_none_iff : deepest offset start parent c = none ↔
    ∀ m ∈ c.preorder start parent, m.span.contains offset = false := by
  rw [deepest_eq, Option.map_eq_none_iff, List.find?_eq_none]
  constructor
  · intro none m hm
    refine Content.preorder_induction (P := fun n => n.span.contains offset = false)
      (fun n out m hm => ?_) c (fun n hn => Bool.eq_false_iff.2 (none n hn)) m hm
    refine Bool.eq_false_iff.2 fun inside => ?_
    rw [contains_of_mem_descendants (Content.mem_preorder_of_mem_siblings hm) inside] at out
    cases out
  · exact fun none n hn => Bool.eq_false_iff.1 (none n (Content.mem_preorder_of_mem_siblings hn))

/-- Of some nodes, one that contains the offset and is below all others that do. -/
structure Innermost (offset : Nat) (ns : List Placed) (n : Placed) : Prop where
  mem : n ∈ ns
  contains : n.span.contains offset = true
  above : ∀ m ∈ ns, m.span.contains offset = true → m = n ∨ n ∈ m.descendants

namespace Innermost

variable {ns ms : List Placed}

theorem appendLeft (h : Innermost offset ns n)
    (out : ∀ m ∈ ms, m.span.contains offset = false) : Innermost offset (ns ++ ms) n where
  mem := List.mem_append_left _ h.mem
  contains := h.contains
  above m hm inside := (List.mem_append.1 hm).elim (h.above m · inside)
    fun hm => absurd inside (Bool.eq_false_iff.1 (out m hm))

theorem appendRight (h : Innermost offset ns n)
    (out : ∀ m ∈ ms, m.span.contains offset = false) : Innermost offset (ms ++ ns) n where
  mem := List.mem_append_right _ h.mem
  contains := h.contains
  above m hm inside := (List.mem_append.1 hm).elim
    (fun hm => absurd inside (Bool.eq_false_iff.1 (out m hm))) (h.above m · inside)

/-- A node below which none contains the offset. -/
theorem here (inside : n.span.contains offset = true)
    (out : ∀ m ∈ n.descendants, m.span.contains offset = false) :
    Innermost offset n.preorder n where
  mem := List.mem_cons_self
  contains := inside
  above m hm within := .inl ((List.mem_cons.1 hm).resolve_right fun hm =>
    absurd within (Bool.eq_false_iff.1 (out m hm)))

/-- A node is above what is below it. -/
theorem below (h : Innermost offset n.descendants m) : Innermost offset n.preorder m where
  mem := List.mem_cons_of_mem _ h.mem
  contains := h.contains
  above l hl inside := (List.mem_cons.1 hl).elim (fun e => .inr (e ▸ h.mem)) (h.above l · inside)

end Innermost

/-- **What is found** is the innermost node that contains the offset. -/
theorem innermost_of_deepest (found : deepest offset start parent c = some n) :
    Innermost offset (c.preorder start parent) n := by
  induction c generalizing start parent with
  | tail s => cases found
  | node gap id kind body next ihb ihn =>
    let here : Placed := ⟨⟨id, kind, body⟩, start + gap.utf8ByteSize, parent⟩
    have listed : (Content.node gap id kind body next).preorder start parent =
        here.preorder ++ next.preorder here.span.stop parent := rfl
    have step : deepest offset start parent (.node gap id kind body next) =
        if here.span.contains offset then
          some ((deepest offset here.start (some id) body).getD here)
        else deepest offset here.span.stop parent next := rfl
    rw [listed]
    rw [step] at found
    split at found <;> rename_i inside
    · -- what is behind this node begins after the offset
      have behind : ∀ m ∈ next.preorder here.span.stop parent,
          m.span.contains offset = false := fun m hm => Bool.eq_false_iff.2 fun within =>
        absurd (contains_iff.1 inside).2
          (Nat.not_lt.2 (Nat.le_trans (Content.within hm).1 (contains_iff.1 within).1))
      refine Innermost.appendLeft ?_ behind
      cases inner : deepest offset here.start (some id) body with
      | some m =>
        rw [inner, Option.getD_some, Option.some.injEq] at found
        exact .below (ihb (found ▸ inner))
      | none =>
        rw [inner, Option.getD_none, Option.some.injEq] at found
        exact found ▸ .here inside (deepest_eq_none_iff.1 inner)
    · refine Innermost.appendRight (ihn found) fun m hm => Bool.eq_false_iff.2 fun within => ?_
      rcases List.mem_cons.1 hm with rfl | hm
      · exact inside within
      · exact inside (contains_of_mem_descendants hm within)

end Placed

/-! ### The descent over slots -/

namespace Arena

/-- The descent over slots leads to one node. -/
theorem Lands.unique {id last last' : NodeId} (h : a.Lands offset id last)
    (h' : a.Lands offset id last') : last = last' := by
  induction h generalizing last' with
  | here step =>
    cases h' with
    | here => rfl
    | down step' => simp [step] at step'
  | down step _ ih =>
    cases h' with
    | here step' => simp [step] at step'
    | down step' h' =>
      rw [step, Option.some.injEq] at step'
      obtain rfl := step'
      exact ih h'

/-- From a node the descent over slots leads to what is found below it, or stays. -/
theorem lands_of_mem (slots : ∀ n ∈ c.preorder start parent, a.slot? n.id = some n.slot)
    (hn : n ∈ c.preorder start parent) :
    a.Lands offset n.id ((Placed.deepest offset n.start (some n.id) n.body).getD n).id := by
  induction c generalizing start parent n with
  | tail s => simp [Content.preorder] at hn
  | node gap id kind body next ihb ihn =>
    have below := fun n hn => slots n (List.mem_append_left _ (List.mem_cons_of_mem _ hn))
    have beside := fun n hn => slots n (List.mem_append_right _ hn)
    rcases List.mem_append.1 hn with hn | hn
    · rcases List.mem_cons.1 hn with rfl | hn
      · have children : (a.slot id).children =
            (body.siblings (start + gap.utf8ByteSize) (some id)).map (·.id) := by
          rw [slot_of_slot? (slots _ List.mem_cons_self)]
          rfl
        have step : (a.slot id).children.find? (fun j => (a.slot j).span.contains offset) =
            ((body.siblings (start + gap.utf8ByteSize) (some id)).find?
              (·.span.contains offset)).map (·.id) := by
          rw [children, List.find?_map]
          refine congrArg _ (List.find?_congr fun m hm => ?_)
          have there := below m (Content.mem_preorder_of_mem_siblings hm)
          simp only [Function.comp, slot_of_slot? there, Placed.slot]
        rw [Placed.deepest_eq]
        cases inner : (body.siblings (start + gap.utf8ByteSize) (some id)).find?
            (·.span.contains offset) with
        | none => exact .here (step.trans (congrArg _ inner))
        | some m =>
          exact .down (step.trans (congrArg _ inner))
            (ihb below (Content.mem_preorder_of_mem_siblings (List.mem_of_find?_eq_some inner)))
      · exact ihb below hn
    · exact ihn beside hn

/-- The descent over slots leads from the root to what is found. -/
theorem Holds.lands_iff (held : a.Holds t) (found : t.covering? offset = some n) {id : NodeId} :
    a.Lands offset t.top.id id ↔ id = n.id := by
  rw [Tree.covering?] at found
  split at found
  · cases found
  · obtain rfl := Option.some.inj found
    have lands : a.Lands offset t.top.id _ := lands_of_mem held.slots Tree.top_mem_nodes
    exact ⟨fun h => h.unique lands, fun e => e ▸ lands⟩

end Arena

/-! ### Trees -/

namespace Tree

theorem covering?_eq_none_iff :
    t.covering? offset = none ↔ offset < t.top.span.start ∨ t.top.span.stop < offset := by
  rw [covering?]
  split <;> rename_i outside <;> simpa using outside

theorem Numbered.covers_of_innermost (h : t.Numbered) (inner : Placed.Innermost offset t.nodes n) :
    t.Covers offset n where
  alive := inner.mem
  contains := .inr inner.contains
  deepest m hm inside := (inner.above m hm inside).imp_right fun below =>
    (h.mem_ancestors_iff inner.mem).2 ⟨hm, below⟩

/-- The root covers what no node below it contains. -/
theorem covers_top (out : ∀ m ∈ t.top.descendants, m.span.contains offset = false) :
    t.Covers offset t.top where
  alive := top_mem_nodes
  contains := .inl rfl
  deepest m hm inside := by
    rw [nodes_eq] at hm
    exact .inl ((List.mem_cons.1 hm).resolve_right fun hm =>
      absurd inside (Bool.eq_false_iff.1 (out m hm)))

/-- **What is found covers the offset.** -/
theorem Numbered.covers_of_covering? (h : t.Numbered) (found : t.covering? offset = some n) :
    t.Covers offset n := by
  rw [covering?] at found
  split at found
  · cases found
  · cases inner : Placed.deepest offset t.top.start (some t.root.id) t.root.body with
    | some m =>
      rw [inner, Option.getD_some, Option.some.injEq] at found
      have below := (Placed.innermost_of_deepest (found ▸ inner)).below (n := t.top)
      exact h.covers_of_innermost (t.nodes_eq ▸ below)
    | none =>
      rw [inner, Option.getD_none, Option.some.injEq] at found
      exact found ▸ covers_top (Placed.deepest_eq_none_iff.1 inner)

/-- One node covers an offset. -/
theorem Numbered.eq_of_covers (h : t.Numbered) (hn : t.Covers offset n) (hm : t.Covers offset m) :
    n = m := by
  have root : ∀ {x}, t.Covers offset x → x.span.contains offset = true →
      t.Covers offset t.top → x = t.top := fun {x} hx inside ht => by
    simpa [ancestors_top] using ht.deepest x hx.alive inside
  rcases hn.contains with rfl | inside
  · rcases hm.contains with rfl | inside'
    · rfl
    · exact (root hm inside' hn).symm
  · rcases hm.contains with rfl | inside'
    · exact root hn inside hm
    · rcases hm.deepest n hn.alive inside with same | above
      · exact same
      · rcases hn.deepest m hm.alive inside' with same | above'
        · exact same.symm
        · -- neither is below the other, since then it would be below itself
          have below := ((h.mem_ancestors_iff hm.alive).1 above).2
          have below' := ((h.mem_ancestors_iff hn.alive).1 above').2
          exact absurd (Content.mem_preorder_of_mem_descendants below below')
            (h.not_mem_descendants hn.alive)

/-- **The node that covers an offset.**  There is none just if the offset is outside the root; else
it is the one node at or above which are all nodes that contain the offset.  The end of the root is
covered by the root.  The descent over the slots of any arena that holds the tree leads there. -/
theorem covering_of_reachable (h : t.Reachable) (offset : Nat) :
    (t.covering? offset = none ↔ offset < t.top.span.start ∨ t.top.span.stop < offset) ∧
    (∀ n, t.covering? offset = some n ↔
      t.top.span.start ≤ offset ∧ offset ≤ t.top.span.stop ∧ t.Covers offset n) ∧
    t.covering? t.top.span.stop = some t.top ∧
    ∀ (a : Arena) n, a.Holds t → t.covering? offset = some n →
      ∀ id, a.Lands offset t.top.id id ↔ id = n.id := by
  have ht := h.numbered
  have covering : ∀ offset n, t.covering? offset = some n ↔
      t.top.span.start ≤ offset ∧ offset ≤ t.top.span.stop ∧ t.Covers offset n := by
    intro offset n
    constructor
    · intro found
      have inside := covering?_eq_none_iff.not.1 (found ▸ Option.some_ne_none n)
      exact ⟨by omega, by omega, ht.covers_of_covering? found⟩
    · rintro ⟨first, last, covers⟩
      have some : t.covering? offset ≠ none := covering?_eq_none_iff.not.2 (by omega)
      obtain ⟨m, found⟩ := Option.ne_none_iff_exists'.1 some
      rw [found, ht.eq_of_covers (ht.covers_of_covering? found) covers]
  refine ⟨covering?_eq_none_iff, covering offset, ?_, fun a n held found id => held.lands_iff found⟩
  refine (covering _ _).2 ⟨Nat.le_add_right _ _, Nat.le_refl _, covers_top fun m hm => ?_⟩
  refine Bool.eq_false_iff.2 fun inside => ?_
  exact absurd (Placed.contains_iff.1 inside).2 (Nat.not_lt.2 (Content.within hm).2)

/-- A root that is less than the source, with an empty node in it and a gap behind that. -/
theorem covering_of_gap : ∃ t : Tree,
    Tree.ofOutline 0 "xabcy" ⟨.document, ⟨1, 4⟩, .node .text ⟨1, 2⟩ .done (.node .whitespace ⟨2, 2⟩
      .done (.node .element ⟨3, 4⟩ (.node .text ⟨3, 4⟩ .done .done) .done))⟩ = .ok t ∧
    ((t.covering? 2 = none ↔ 2 < t.top.span.start ∨ t.top.span.stop < 2) ∧
      (∀ n, t.covering? 2 = some n ↔
        t.top.span.start ≤ 2 ∧ 2 ≤ t.top.span.stop ∧ t.Covers 2 n) ∧
      t.covering? t.top.span.stop = some t.top ∧
      ∀ (a : Arena) n, a.Holds t → t.covering? 2 = some n →
        ∀ id, a.Lands 2 t.top.id id ↔ id = n.id) ∧
    [0, 1, 2, 3, 4, 5].map (fun o => (t.covering? o).map (·.id)) =
      [none, some 0, some 4, some 2, some 4, none] := by
  have stored : Tree.ofOutline 0 "xabcy" ⟨.document, ⟨1, 4⟩, .node .text ⟨1, 2⟩ .done
      (.node .whitespace ⟨2, 2⟩ .done (.node .element ⟨3, 4⟩ (.node .text ⟨3, 4⟩ .done .done)
        .done))⟩ = .ok ⟨0, "x", ⟨4, .document, .node "" 0 .text (.tail "a") (.node "" 1 .whitespace
          (.tail "") (.node "b" 3 .element (.node "" 2 .text (.tail "c") (.tail ""))
            (.tail "")))⟩, "y"⟩ := rfl
  exact ⟨_, stored, covering_of_reachable (.stored stored) 2, rfl⟩

end Tree

end SyntaxLint
