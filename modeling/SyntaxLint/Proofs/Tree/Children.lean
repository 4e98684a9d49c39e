import SyntaxLint.Proofs.Tree.Fragment

/-!
# Proofs — Trees — children and ancestors

The children of a node are the nodes of its content, each where it stands.  The ancestors of a
child are its parent and the ancestors of that; so what holds of the root and passes from a node to
its children, given the nodes above it, holds of every node of a tree.

* `Content.nodes`, `Placed.map_toNode_children`: the children of a node, without where they stand.
* `Tree.Numbered.ancestors_of_mem_children`: the ancestors of a child.
* `Tree.Numbered.ancestors_induction`: induction from the root down.
-/

namespace SyntaxLint

namespace Content

variable {c : Content} {start : Nat} {parent : Option NodeId} {n m : Placed}

/-- The nodes of a run, without those below them and without where they stand. -/
def nodes : Content → List Node
  | .tail _ => []
  | .node _ id kind body next => ⟨id, kind, body⟩ :: next.nodes

@[simp] theorem nodes_ofNodes (ns : List Node) : (ofNodes ns).nodes = ns := by
  induction ns with
  | nil => rfl
  | cons n ns ih => rw [ofNodes, nodes, ih]

theorem map_toNode_siblings (c : Content) (start : Nat) (parent : Option NodeId) :
    (c.siblings start parent).map (·.toNode) = c.nodes := by
  induction c generalizing start with
  | tail s => rfl
  | node gap id kind body next _ ihn => rw [siblings, List.map_cons, ihn, nodes]

/-! ### Nodes above a node -/

theorem above_of_not_mem {target : NodeId} (h : target ∉ c.ids) :
    c.above target start parent = none := by
  induction c generalizing start parent with
  | tail s => rfl
  | node gap id kind body next ihb ihn =>
    simp only [ids, List.cons_append, List.mem_cons, List.mem_append, not_or] at h
    rw [above, if_neg (Ne.symm h.1), ihb h.2.1]
    exact ihn h.2.2

/-- Above the siblings of a run there is no node of the run. -/
theorem above_of_mem_siblings (hd : c.ids.Nodup) (hn : n ∈ c.siblings start parent) :
    c.above n.id start parent = some [] := by
  induction c generalizing start with
  | tail s => simp [siblings] at hn
  | node gap id kind body next _ ihn =>
    obtain ⟨-, idn, -, hx, apart⟩ := nodup_node hd
    rcases List.mem_cons.1 hn with rfl | hn
    · rw [above, if_pos rfl]
    · have mem := id_mem_ids (mem_preorder_of_mem_siblings hn)
      have ne : id ≠ n.id := fun e => idn (e ▸ mem)
      rw [above, if_neg ne, above_of_not_mem fun inside => apart _ inside mem]
      exact ihn hx hn

/-- The nodes above a child are its parent and the nodes above that. -/
theorem above_of_mem_children (hd : c.ids.Nodup) (hn : n ∈ c.preorder start parent)
    (hm : m ∈ n.children) : ∃ path, c.above n.id start parent = some path ∧
      c.above m.id start parent = some (n :: path) := by
  induction c generalizing start parent with
  | tail s => simp [preorder] at hn
  | node gap id kind body next ihb ihn =>
    obtain ⟨idb, idn, hb, hx, apart⟩ := nodup_node hd
    rcases List.mem_append.1 hn with hn | hn
    · rcases List.mem_cons.1 hn with rfl | hn
      · have mem := id_mem_ids (mem_preorder_of_mem_siblings hm)
        have ne : id ≠ m.id := fun e => idb (e ▸ mem)
        have none : body.above m.id (start + gap.utf8ByteSize) (some id) = some [] :=
          above_of_mem_siblings hb hm
        refine ⟨[], by rw [above, if_pos rfl], ?_⟩
        rw [above, if_neg ne, none]
        rfl
      · have memn := id_mem_ids hn
        have memm := id_mem_ids (mem_preorder_of_mem_children hn hm)
        have nen : id ≠ n.id := fun e => idb (e ▸ memn)
        have nem : id ≠ m.id := fun e => idb (e ▸ memm)
        obtain ⟨path, above', child⟩ := ihb hb hn
        refine ⟨path ++ [⟨⟨id, kind, body⟩, start + gap.utf8ByteSize, parent⟩], ?_, ?_⟩
        · rw [above, if_neg nen, above']
        · rw [above, if_neg nem, child]
          rfl
    · have memn := id_mem_ids hn
      have memm := id_mem_ids (mem_preorder_of_mem_children hn hm)
      have nen : id ≠ n.id := fun e => idn (e ▸ memn)
      have nem : id ≠ m.id := fun e => idn (e ▸ memm)
      obtain ⟨path, above', child⟩ := ihn hx hn
      refine ⟨path, ?_, ?_⟩
      · rw [above, if_neg nen, above_of_not_mem fun inside => apart _ inside memn]
        exact above'
      · rw [above, if_neg nem, above_of_not_mem fun inside => apart _ inside memm]
        exact child

end Content

/-- The children of a node, without where they stand. -/
theorem Placed.map_toNode_children (n : Placed) : n.children.map (·.toNode) = n.body.nodes :=
  n.body.map_toNode_siblings n.start (some n.id)

namespace Tree

variable {t : Tree} {n m p : Placed}

theorem ancestors_top (t : Tree) : t.ancestors t.top.id = [] := by
  simp [ancestors, content, Content.above, top]

/-- **The ancestors of a child are its parent and the ancestors of its parent.** -/
theorem Numbered.ancestors_of_mem_children (h : t.Numbered) (hp : p ∈ t.nodes)
    (hn : n ∈ p.children) : t.ancestors n.id = p :: t.ancestors p.id := by
  obtain ⟨path, above, child⟩ := Content.above_of_mem_children h.nodup hp hn
  rw [ancestors, ancestors, above, child]
  rfl

/-- Induction from the root down, over each node and the nodes above it. -/
theorem Numbered.ancestors_induction (h : t.Numbered) {P : Placed → List Placed → Prop}
    (top : P t.top []) (down : ∀ p path, P p path → ∀ n ∈ p.children, P n (p :: path)) :
    ∀ n ∈ t.nodes, P n (t.ancestors n.id) := by
  intro n hn
  induction mem_nodes_iff_reached.1 hn with
  | top =>
    rw [ancestors_top]
    exact top
  | @child p n reached hc ih =>
    have hp := mem_nodes_iff_reached.2 reached
    rw [h.ancestors_of_mem_children hp hc]
    exact down p _ (ih hp) n hc

end Tree

end SyntaxLint
