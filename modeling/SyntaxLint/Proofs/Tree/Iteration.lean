import Mathlib.Data.List.Find
import SyntaxLint.Proofs.Tree.Navigation
import SyntaxLint.Proofs.Tree.Refused
import SyntaxLint.Tree.Links

/-!
# Proofs — Trees — iteration over slots

Slots of removed nodes have links too, but from the slot of a live node the links that one follows
do not lead to them: in every arena there is the stack of pre-order runs empty, the chain of parents
ends, and all lead to the nodes of the tree.

* `Arena.yields_siblings`: what comes off a stack.
* `Arena.Navigates`: the links of a slot lead where the tree does.
* `Arena.navigable_of_reachable`: so it is in every arena there is, after any edits.
-/

namespace SyntaxLint

namespace Arena

/-- The links of the slot of a node lead where the tree does. -/
structure Navigates (a : Arena) (t : Tree) (n : Placed) : Prop where
  preorder : ∀ ids, a.Yields [n.id] ids ↔ ids = n.preorder.map (·.id)
  ancestors : ∀ ids, a.Climbs n.id ids ↔ ids = (t.ancestors n.id).map (·.id)
  index : a.index? n.id = t.index? n
  next : a.next? n.id = (t.next? n).map (·.id)
  previous : a.previous? n.id = (t.previous? n).map (·.id)
  /-- what pre-order yields behind the first, if it is of a kind: the first such, and all -/
  kinds : ∀ ids, a.Yields [n.id] ids → ∀ kind,
    (ids.drop 1).find? (a.isOf kind) = (n.descendant? kind).map (·.id) ∧
    (ids.drop 1).filter (a.isOf kind) = (n.descendantsOf kind).map (·.id)

variable {a : Arena} {t : Tree} {n p : Placed} {id : NodeId} {stack ids ids' : List NodeId}

/-- A stack yields one list. -/
theorem Yields.unique (h : a.Yields stack ids) (h' : a.Yields stack ids') : ids = ids' := by
  induction h generalizing ids' with
  | done step =>
    cases h' with
    | done => rfl
    | more step' => simp [step] at step'
  | more step _ ih =>
    cases h' with
    | done step' => simp [step] at step'
    | more step' h' =>
      rw [step, Option.some.injEq, Prod.mk.injEq] at step'
      obtain ⟨rfl, rfl⟩ := step'
      rw [ih h']

/-- There is one chain of parents. -/
theorem Climbs.unique (h : a.Climbs id ids) (h' : a.Climbs id ids') : ids = ids' := by
  induction h generalizing ids' with
  | top step =>
    cases h' with
    | top => rfl
    | up step' => simp [step] at step'
  | up step _ ih =>
    cases h' with
    | top step' => simp [step] at step'
    | up step' h' =>
      rw [step, Option.some.injEq] at step'
      obtain rfl := step'
      rw [ih h']

/-! ### The stack and the chain -/

/-- **What comes off a stack** with the siblings of a run on top: the nodes of the run, and then
what comes off the rest. -/
theorem yields_siblings (c : Content) {start : Nat} {parent : Option NodeId}
    (slots : ∀ n ∈ c.preorder start parent, a.slot? n.id = some n.slot)
    (rest : a.Yields stack ids) :
    a.Yields ((c.siblings start parent).map (·.id) ++ stack)
      ((c.preorder start parent).map (·.id) ++ ids) := by
  induction c generalizing start parent stack ids with
  | tail s => exact rest
  | node gap id kind body next ihb ihn =>
    have here := slots _ List.mem_cons_self
    have below := fun n hn => slots n (List.mem_append_left _ (List.mem_cons_of_mem _ hn))
    have beside := fun n hn => slots n (List.mem_append_right _ hn)
    simp only [Content.siblings, Content.preorder, List.map_append, List.map_cons,
      List.cons_append, List.append_assoc]
    refine .more ?_ (ihb below (ihn beside rest))
    rw [advance, slot_of_slot? here]
    rfl

theorem Holds.yields (held : a.Holds t) (hn : n ∈ t.nodes) :
    a.Yields [n.id] (n.preorder.map (·.id)) := by
  have slots : ∀ m ∈ n.alone.preorder n.start n.parent, a.slot? m.id = some m.slot := fun m hm =>
    held.slots m (Tree.mem_nodes_of_mem_preorder hn (n.preorder_alone ▸ hm))
  have empty : a.Yields [] [] := .done rfl
  have off := yields_siblings n.alone slots empty
  rw [n.preorder_alone, List.append_nil, List.append_nil] at off
  exact off

theorem Holds.climbs (held : a.Holds t) (ht : t.Numbered) (hn : n ∈ t.nodes) :
    a.Climbs n.id ((t.ancestors n.id).map (·.id)) := by
  have all := ht.ancestors_induction
    (P := fun n path => n ∈ t.nodes ∧ a.Climbs n.id (path.map (·.id)))
    ⟨Tree.top_mem_nodes, .top (by rw [slot_of_slot? (held.slots _ Tree.top_mem_nodes)]; rfl)⟩
    fun p path ⟨hp, climbs⟩ n child => by
      have hn := Tree.mem_nodes_of_mem_children hp child
      refine ⟨hn, .up ?_ climbs⟩
      rw [slot_of_slot? (held.slots n hn)]
      exact Content.parent_of_mem_siblings child
  exact (all n hn).2

/-! ### The links of a node -/

/-- The slot of the root has no parent. -/
theorem Holds.parent_top (held : a.Holds t) : (a.slot t.top.id).parent = none := by
  rw [slot_of_slot? (held.slots _ Tree.top_mem_nodes)]
  rfl

/-- The slot of a child has the parent that lists it. -/
theorem Holds.parent_of_mem_children (held : a.Holds t) (hp : p ∈ t.nodes)
    (child : n ∈ p.children) : (a.slot n.id).parent = some p.id := by
  rw [slot_of_slot? (held.slots n (Tree.mem_nodes_of_mem_children hp child))]
  exact Content.parent_of_mem_siblings child

theorem Holds.children_slot (held : a.Holds t) (hp : p ∈ t.nodes) :
    (a.slot p.id).children = p.children.map (·.id) := by
  rw [slot_of_slot? (held.slots p hp)]
  rfl

/-- **The links of a live node.** -/
theorem Holds.navigates (held : a.Holds t) (ht : t.Numbered) (hn : n ∈ t.nodes) :
    a.Navigates t n := by
  have yields := held.yields hn
  have climbs := held.climbs ht hn
  have isOf : ∀ kind, ∀ m ∈ n.descendants, a.isOf kind m.id = (m.kind == kind) := by
    intro kind m hm
    rw [Arena.isOf, slot_of_slot? (held.slots m (Content.mem_preorder_of_mem_descendants hn hm))]
    rfl
  have beside : a.index? n.id = t.index? n ∧ a.next? n.id = (t.next? n).map (·.id) ∧
      a.previous? n.id = (t.previous? n).map (·.id) := by
    rcases Tree.eq_top_or_exists_getElem? hn with rfl | ⟨p, hp, i, place⟩
    · simp only [Arena.index?, Arena.next?, Arena.previous?, held.parent_top]
      exact ⟨rfl, rfl, rfl⟩
    · have parent := held.parent_of_mem_children hp (List.mem_of_getElem? place)
      have index : a.index? n.id = some i := by
        rw [Arena.index?, parent, Option.bind_some, slot_of_slot? (held.slots p hp),
          idxOf?_children]
        exact ht.findIdx?_of_getElem? hp place
      rw [ht.index?_of_getElem? hp place, ht.next?_of_getElem? hp place,
        ht.previous?_of_getElem? hp place, Arena.next?, Arena.previous?, index, parent]
      refine ⟨rfl, ?_, ?_⟩ <;>
        simp only [Option.bind_some, held.children_slot hp, List.getElem?_map]
      split <;> rfl
  constructor
  case preorder => exact fun ids => ⟨fun h => h.unique yields, fun e => e ▸ yields⟩
  case ancestors => exact fun ids => ⟨fun h => h.unique climbs, fun e => e ▸ climbs⟩
  case index => exact beside.1
  case next => exact beside.2.1
  case previous => exact beside.2.2
  case kinds =>
    rintro ids off kind
    obtain rfl := off.unique yields
    rw [Placed.preorder, List.map_cons, List.drop_one, List.tail_cons, List.find?_map,
      List.filter_map]
    exact ⟨congrArg _ (List.find?_congr (isOf kind)), congrArg _ (List.filter_congr (isOf kind))⟩

/-! ### The arenas there are -/

/-- **Navigation in the arenas there are.**  Every arena, after any edits, holds a tree; and in
whatever tree it holds, every live node can be navigated from, by the links of its slot. -/
theorem navigable_of_reachable (h : a.Reachable) :
    (∃ t : Tree, t.Reachable ∧ a.Holds t) ∧
    ∀ t : Tree, t.Reachable → a.Holds t →
      (∀ id s, a.Live id s ↔ ∃ n ∈ t.nodes, n.id = id ∧ s = n.slot) ∧
      ∀ n ∈ t.nodes, t.Navigable n ∧ a.Navigates t n := by
  refine ⟨h.exists_holds, fun t reachable held => ⟨fun id s => ⟨held.exists_of_live, ?_⟩, ?_⟩⟩
  · rintro ⟨n, hn, rfl, rfl⟩
    exact ⟨held.slots n hn, rfl⟩
  · exact fun n hn => ⟨reachable.numbered.navigable hn, held.navigates reachable.numbered hn⟩

/-- A tree whose second child is removed: the first and the third are side by side. -/
theorem navigable_of_removed : ∃ t : Tree,
    Tree.ofEvents 0 [.start .document, .start .element, .token .text "a", .finish,
      .token .whitespace " ", .token .text "bc", .finish] = .ok t ∧
    let a := (t.arena.edit (.remove 4 2 2)).arena
    a.Reachable ∧ (∃ u : Tree, u.Reachable ∧ a.Holds u ∧
      (∀ id s, a.Live id s ↔ ∃ n ∈ u.nodes, n.id = id ∧ s = n.slot) ∧
      ∀ n ∈ u.nodes, u.Navigable n ∧ a.Navigates u n) ∧
    a.Yields [4] [4, 1, 0, 3] ∧ a.Climbs 0 [1, 4] ∧ a.next? 1 = some 3 ∧
    a.previous? 3 = some 1 := by
  have built : Tree.ofEvents 0 [.start .document, .start .element, .token .text "a", .finish,
      .token .whitespace " ", .token .text "bc", .finish] = .ok ⟨0, "", ⟨4, .document,
        .node "" 1 .element (.node "" 0 .text (.tail "a") (.tail ""))
          (.node "" 2 .whitespace (.tail " ") (.node "" 3 .text (.tail "bc") (.tail "")))⟩,
        ""⟩ := rfl
  refine ⟨_, built, ?_⟩
  intro a
  have reachable : a.Reachable := .edit (.new (.built built)) (.remove 4 2 2)
  have stored : a = ⟨"abc", #[⟨.text, ⟨0, 1⟩, some 1, [], true⟩,
      ⟨.element, ⟨0, 1⟩, some 4, [0], true⟩, ⟨.whitespace, ⟨1, 2⟩, some 4, [], false⟩,
      ⟨.text, ⟨1, 3⟩, some 4, [], true⟩, ⟨.document, ⟨0, 3⟩, none, [1, 3], true⟩]⟩ := by
    decide +kernel
  obtain ⟨⟨u, hu, held⟩, navigable⟩ := navigable_of_reachable reachable
  refine ⟨reachable, ⟨u, hu, held, navigable u hu held⟩, ?_⟩
  rw [stored]
  exact ⟨.more rfl (.more rfl (.more rfl (.more rfl (.done rfl)))), .up rfl (.up rfl (.top rfl)),
    rfl, rfl⟩

end Arena

end SyntaxLint
