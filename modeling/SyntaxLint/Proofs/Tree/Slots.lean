import Mathlib.Data.List.Perm.Subperm
import SyntaxLint.Proofs.Tree.Spliced
import SyntaxLint.Tree.Arena

/-!
# Proofs — Trees — slots

What the writes of an edit in place do, slot by slot.

* `Arena.slot?_walk`: a change of all slots below some nodes.
* `Arena.slot?_sweep`: what moves in the children of one node after an edit below it.
-/

namespace SyntaxLint

namespace Content

/-- The nodes of a run are its siblings, each before those below it. -/
theorem preorder_eq_flatMap_siblings (c : Content) (start : Nat) (parent : Option NodeId) :
    c.preorder start parent = (c.siblings start parent).flatMap Placed.preorder := by
  induction c generalizing start with
  | tail s => rfl
  | node gap id kind body next _ ihn =>
    rw [preorder, siblings, List.flatMap_cons, ← ihn]
    rfl

end Content

namespace Arena

variable {a : Arena} {f : Slot → Slot} {ns : List Placed} {n : Placed} {id j : NodeId}

/-! ### Slots one by one -/

@[simp] theorem slot?_modify (a : Arena) (id : NodeId) (f : Slot → Slot) (j : NodeId) :
    (a.modify id f).slot? j = if id = j then (a.slot? j).map f else a.slot? j := by
  simp [slot?, modify, Array.getElem?_modify]

@[simp] theorem slot?_splice (a : Arena) (s : Span) (text : String) (j : NodeId) :
    (a.splice s text).slot? j = a.slot? j := rfl

@[simp] theorem source_modify (a : Arena) (id : NodeId) (f : Slot → Slot) :
    (a.modify id f).source = a.source := rfl

@[simp] theorem size_modify (a : Arena) (id : NodeId) (f : Slot → Slot) :
    (a.modify id f).slots.size = a.slots.size := by
  simp [modify]

theorem slot_of_slot? {s : Slot} (h : a.slot? id = some s) : a.slot id = s := by
  rw [slot, h, Option.getD_some]

theorem modify_id (h : ∀ s, f s = s) : a.modify id f = a := by
  obtain ⟨source, slots⟩ := a
  have same : slots.modify id f = slots := by
    refine Array.ext (by simp) fun i hi hi' => ?_
    simp [Array.getElem_modify, h]
  rw [modify, same]

/-! ### Walks -/

@[simp] theorem source_walk (f : Slot → Slot) (fuel : Nat) (stack : List NodeId) (a : Arena) :
    (walk f fuel stack a).source = a.source := by
  fun_induction walk f fuel stack a with
  | case1 => rfl
  | case2 => rfl
  | case3 a fuel id stack b ih => rw [ih]; rfl

@[simp] theorem size_walk (f : Slot → Slot) (fuel : Nat) (stack : List NodeId) (a : Arena) :
    (walk f fuel stack a).slots.size = a.slots.size := by
  fun_induction walk f fuel stack a with
  | case1 => rfl
  | case2 => rfl
  | case3 a fuel id stack b ih => rw [ih, size_modify]

theorem walk_id (h : ∀ s, f s = s) (fuel : Nat) (stack : List NodeId) (a : Arena) :
    walk f fuel stack a = a := by
  fun_induction walk f fuel stack a with
  | case1 => rfl
  | case2 => rfl
  | case3 a fuel id stack b ih => rw [ih]; exact modify_id h

/-- Slots that are as many as there are nodes, at least. -/
def Lists (a : Arena) (ns : List Placed) : Prop :=
  (ns.map (·.id)).Nodup ∧
    ∀ n ∈ ns, ∃ s, a.slot? n.id = some s ∧ s.children = n.children.map (·.id)

theorem Lists.of_perm {ns' : List Placed} (h : a.Lists ns) (perm : ns.Perm ns') : a.Lists ns' :=
  ⟨(perm.map _).nodup_iff.1 h.1, fun n hn => h.2 n (perm.mem_iff.2 hn)⟩

theorem Lists.length_le (h : a.Lists ns) : ns.length ≤ a.slots.size := by
  have sub : ns.map (·.id) ⊆ List.range a.slots.size := by
    intro id hid
    obtain ⟨n, hn, rfl⟩ := List.mem_map.1 hid
    obtain ⟨s, held, -⟩ := h.2 n hn
    exact List.mem_range.2 (Array.getElem?_eq_some_iff.1 held).1
  simpa using (List.subperm_of_subset h.1 sub).length_le

/-- The nodes on a stack once the first is visited. -/
theorem perm_visited (n : Placed) (ns : List Placed) :
    ((n :: ns).flatMap Placed.preorder).Perm
      (n :: (n.children.reverse ++ ns).flatMap Placed.preorder) := by
  rw [List.flatMap_cons, List.flatMap_append, Placed.preorder, List.cons_append]
  refine ((List.Perm.append_right _ ?_)).cons n
  rw [Placed.descendants, Content.preorder_eq_flatMap_siblings]
  exact (List.reverse_perm _).symm.flatMap_right _

/-- **A walk changes the slots of the nodes on its stack and of those below them**, each once. -/
theorem slot?_walk (hf : ∀ s, (f s).children = s.children) {fuel : Nat}
    (held : a.Lists (ns.flatMap Placed.preorder))
    (enough : (ns.flatMap Placed.preorder).length ≤ fuel) (j : NodeId) :
    (walk f fuel (ns.map (·.id)) a).slot? j =
      if j ∈ (ns.flatMap Placed.preorder).map (·.id) then (a.slot? j).map f else a.slot? j := by
  -- by induction on the steps: the first node on the stack makes way for its children
  induction fuel generalizing ns a with
  | zero =>
    cases ns with
    | nil => simp [walk]
    | cons n ns => simp [Placed.preorder] at enough
  | succ fuel ih =>
    cases ns with
    | nil => simp [walk]
    | cons n ns =>
      have visited := perm_visited n ns
      obtain ⟨distinct, all⟩ := held.of_perm visited
      obtain ⟨out, distinct⟩ := List.nodup_cons.1 distinct
      have out : n.id ∉ ((n.children.reverse ++ ns).flatMap Placed.preorder).map (·.id) := out
      obtain ⟨s, found, children⟩ := all n List.mem_cons_self
      have here : ((a.modify n.id f).slot n.id).children.reverse ++ ns.map (·.id) =
          (n.children.reverse ++ ns).map (·.id) := by
        rw [slot_of_slot? (s := f s) (by simp [found]), hf, children]
        simp
      have rest : (a.modify n.id f).Lists ((n.children.reverse ++ ns).flatMap Placed.preorder) := by
        refine ⟨distinct, fun m hm => ?_⟩
        have ne : n.id ≠ m.id := fun e => out (by rw [e]; exact List.mem_map_of_mem hm)
        simpa [ne] using all m (List.mem_cons_of_mem _ hm)
      have fewer := visited.length_eq ▸ enough
      rw [List.map_cons, walk, here, ih rest (by simpa using fewer)]
      have mem : j ∈ ((n :: ns).flatMap Placed.preorder).map (·.id) ↔
          j = n.id ∨ j ∈ ((n.children.reverse ++ ns).flatMap Placed.preorder).map (·.id) := by
        rw [(visited.map _).mem_iff, List.map_cons, List.mem_cons]
      by_cases e : j = n.id
      · subst e
        rw [if_neg out, if_pos (mem.2 (.inl rfl)), slot?_modify, if_pos rfl]
      · simp only [mem, e, false_or, slot?_modify, if_neg (Ne.symm e)]

/-- Changing what is below each of some nodes. -/
theorem slot?_foldl_below (hf : ∀ s, (f s).children = s.children)
    (held : a.Lists (ns.flatMap Placed.preorder)) (j : NodeId) :
    ((ns.map (·.id)).foldl (below f) a).slot? j =
      if j ∈ (ns.flatMap Placed.preorder).map (·.id) then (a.slot? j).map f else a.slot? j := by
  induction ns generalizing a with
  | nil => simp
  | cons n ns ih =>
    rw [List.flatMap_cons] at held
    obtain ⟨distinct, all⟩ := held
    rw [List.map_append] at distinct
    obtain ⟨one, others, apart⟩ := List.nodup_append.1 distinct
    have first : a.Lists ([n].flatMap Placed.preorder) := by
      rw [List.flatMap_singleton]
      exact ⟨one, fun m hm => all m (List.mem_append_left _ hm)⟩
    have step := slot?_walk hf first (by simpa using first.length_le)
    rw [List.flatMap_singleton] at step
    have rest : (below f a n.id).Lists (ns.flatMap Placed.preorder) := by
      refine ⟨others, fun m hm => ?_⟩
      have out : m.id ∉ n.preorder.map (·.id) := fun mem =>
        apart _ mem _ (List.mem_map_of_mem hm) rfl
      have same := step m.id
      rw [if_neg out] at same
      exact same ▸ all m (List.mem_append_right _ hm)
    rw [List.map_cons, List.foldl_cons, ih rest, List.flatMap_cons, List.map_append]
    have here : (below f a n.id).slot? j = _ := step j
    rw [here]
    by_cases e : j ∈ n.preorder.map (·.id)
    · have out : j ∉ (ns.flatMap Placed.preorder).map (·.id) := fun mem => apart _ e _ mem rfl
      rw [if_neg out, if_pos e, if_pos (List.mem_append_left _ e)]
    · simp only [List.mem_append, e, false_or, if_false]

@[simp] theorem source_foldl_below (f : Slot → Slot) (ids : List NodeId) (a : Arena) :
    (ids.foldl (below f) a).source = a.source := by
  induction ids generalizing a with
  | nil => rfl
  | cons id ids ih => rw [List.foldl_cons, ih, below, source_walk]

@[simp] theorem size_foldl_below (f : Slot → Slot) (ids : List NodeId) (a : Arena) :
    (ids.foldl (below f) a).slots.size = a.slots.size := by
  induction ids generalizing a with
  | nil => rfl
  | cons id ids ih => rw [List.foldl_cons, ih, below, size_walk]

theorem foldl_below_id (h : ∀ s, f s = s) (ids : List NodeId) (a : Arena) :
    ids.foldl (below f) a = a := by
  induction ids with
  | nil => rfl
  | cons id ids ih => rw [List.foldl_cons, below, walk_id h, ih]

/-! ### What moves -/

variable {delta : Int} {owner : NodeId} {index : Nat}

@[simp] theorem source_sweep (delta : Int) (a : Arena) (owner : NodeId) (index : Nat) :
    (a.sweep delta owner index).source = a.source := by
  simp [sweep]

@[simp] theorem size_sweep (delta : Int) (a : Arena) (owner : NodeId) (index : Nat) :
    (a.sweep delta owner index).slots.size = a.slots.size := by
  simp [sweep]

/-- **What moves below one node**: the children from a place on, with all that is below them; and
the node itself grows or shrinks. -/
theorem slot?_sweep (delta : Int) (children : (a.slot owner).children.drop index = ns.map (·.id))
    (held : a.Lists (ns.flatMap Placed.preorder))
    (out : owner ∉ (ns.flatMap Placed.preorder).map (·.id)) (j : NodeId) :
    (a.sweep delta owner index).slot? j =
      if j ∈ (ns.flatMap Placed.preorder).map (·.id) then (a.slot? j).map (.shift delta)
      else if owner = j then (a.slot? j).map (.stretch delta) else a.slot? j := by
  rw [sweep, slot?_modify, children, slot?_foldl_below (f := .shift delta) (fun s => rfl) held]
  by_cases e : owner = j
  · subst e
    rw [if_pos rfl, if_neg out, if_neg out, if_pos rfl]
  · rw [if_neg e, if_neg e]

@[simp] theorem source_climb (delta : Int) (fuel : Nat) (a : Arena) (owner : NodeId)
    (index : Nat) : (climb delta fuel a owner index).source = a.source := by
  induction fuel generalizing a owner index with
  | zero => rfl
  | succ fuel ih =>
    rw [climb]
    split
    · rw [source_sweep]
    · rw [ih, source_sweep]

theorem climb_zero (fuel : Nat) (a : Arena) (owner : NodeId) (index : Nat) :
    climb 0 fuel a owner index = a := by
  have still : ∀ offset, shifted offset 0 = offset := fun offset => by simp [shifted]
  have swept : ∀ owner index, a.sweep 0 owner index = a := fun owner index => by
    rw [sweep, foldl_below_id fun s => by simp [Slot.shift, still],
      modify_id fun s => by simp [Slot.stretch, still]]
  induction fuel generalizing owner index with
  | zero => rfl
  | succ fuel ih =>
    rw [climb, swept]
    split
    · rfl
    · exact ih _ _

/-- Where nothing moves, moving changes nothing. -/
theorem shiftFollowing_eq (a : Arena) (owner : NodeId) (index : Nat) (delta : Int) :
    a.shiftFollowing owner index delta = climb delta a.slots.size a owner index := by
  rw [shiftFollowing]
  split
  · rename_i none
    rw [none, climb_zero]
  · rfl

end Arena

/-! ### Nodes that move -/

/-- A node that moves with everything below it. -/
def Placed.shift (delta : Int) (n : Placed) : Placed := { n with start := shifted n.start delta }

theorem shifted_eq {offset place : Nat} {delta : Int} (h : (place : Int) = offset + delta) :
    shifted offset delta = place := by
  rw [shifted, ← h, Int.toNat_natCast]

namespace Content

variable {c : Content} {start place : Nat} {delta : Int}

theorem shift_eq {n : Node} {parent : Option NodeId} (h : (place : Int) = start + delta) :
    Placed.shift delta ⟨n, start, parent⟩ = ⟨n, place, parent⟩ := by
  rw [Placed.shift, shifted_eq h]

theorem siblings_shift (h : (place : Int) = start + delta) (parent : Option NodeId) :
    c.siblings place parent = (c.siblings start parent).map (Placed.shift delta) := by
  induction c generalizing start place with
  | tail s => rfl
  | node gap id kind body next _ ihn =>
    have here : ((place + gap.utf8ByteSize : Nat) : Int) =
        (start + gap.utf8ByteSize : Nat) + delta := by omega
    have next : ((place + gap.utf8ByteSize + body.width : Nat) : Int) =
        (start + gap.utf8ByteSize + body.width : Nat) + delta := by omega
    rw [siblings, siblings, List.map_cons, ihn next, shift_eq here]

theorem preorder_shift (h : (place : Int) = start + delta) (parent : Option NodeId) :
    c.preorder place parent = (c.preorder start parent).map (Placed.shift delta) := by
  induction c generalizing start place parent with
  | tail s => rfl
  | node gap id kind body next ihb ihn =>
    have here : ((place + gap.utf8ByteSize : Nat) : Int) =
        (start + gap.utf8ByteSize : Nat) + delta := by omega
    have next : ((place + gap.utf8ByteSize + body.width : Nat) : Int) =
        (start + gap.utf8ByteSize + body.width : Nat) + delta := by omega
    rw [preorder, preorder, List.map_append, List.map_cons, ihb here, ihn next, shift_eq here]

end Content

namespace Placed

variable {n : Placed} {delta : Int}

@[simp] theorem id_shift (delta : Int) (n : Placed) : (n.shift delta).id = n.id := rfl

theorem preorder_shift (h : 0 ≤ n.start + delta) :
    (n.shift delta).preorder = n.preorder.map (shift delta) := by
  rw [preorder, preorder, List.map_cons, descendants, descendants]
  congr 1
  exact Content.preorder_shift (Int.toNat_of_nonneg h) (some n.id)

/-- The slot of a node that moves. -/
theorem slot_shift (h : 0 ≤ n.start + delta) : (n.shift delta).slot = n.slot.shift delta := by
  have start : ((shifted n.start delta : Nat) : Int) = n.start + delta := Int.toNat_of_nonneg h
  have stop : shifted (n.start + n.body.width) delta = shifted n.start delta + n.body.width :=
    shifted_eq (by omega)
  have children : (n.shift delta).children.map (·.id) = n.children.map (·.id) :=
    Content.map_id_siblings _ _ _ _ _
  rw [slot, slot, Slot.shift, children]
  simp only [span, stop]
  rfl

/-- The nodes below nodes that move, and these, move. -/
theorem exists_of_mem_shift {ns : List Placed} {m : Placed}
    (order : ∀ y ∈ ns.flatMap preorder, 0 ≤ y.start + delta)
    (hm : m ∈ (ns.map (shift delta)).flatMap preorder) :
    ∃ y ∈ ns.flatMap preorder, m.id = y.id ∧ y.slot.shift delta = m.slot := by
  rw [List.flatMap_map] at hm
  obtain ⟨z, hz, hm⟩ := List.mem_flatMap.1 hm
  have there : ∀ y ∈ z.preorder, y ∈ ns.flatMap preorder :=
    fun y hy => List.mem_flatMap.2 ⟨z, hz, hy⟩
  rw [preorder_shift (order z (there z List.mem_cons_self))] at hm
  obtain ⟨y, hy, rfl⟩ := List.mem_map.1 hm
  exact ⟨y, there y hy, rfl, (slot_shift (order y (there y hy))).symm⟩

end Placed

end SyntaxLint
