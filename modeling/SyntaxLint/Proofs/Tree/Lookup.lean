import SyntaxLint.Proofs.Text.Splice
import SyntaxLint.Proofs.Tree.Identity

/-!
# Proofs — Trees — looking nodes up

A node is reached from the root through lists of children.  In a tree whose identities are
distinct the reached nodes are the ones that are found under their identities, each is the child
of one node only, and that is the node it names as its parent.

* `Tree.mem_nodes_iff_reached`: pre-order lists what is reached.
* `Tree.node?_eq_some_iff`: what is found under an identity.
* `Tree.text_eq_slice`: the text of a node is the slice of the source that it covers.
-/

namespace SyntaxLint

/-- What holds of the siblings of a run and passes to children holds of every node of the run. -/
theorem Content.preorder_induction {P : Placed → Prop}
    (down : ∀ n, P n → ∀ m ∈ n.children, P m) (c : Content) {start : Nat}
    {parent : Option NodeId} (h : ∀ n ∈ c.siblings start parent, P n) :
    ∀ n ∈ c.preorder start parent, P n := by
  induction c generalizing start parent with
  | tail s => simp [preorder]
  | node gap id kind body next ihb ihn =>
    have here := h ⟨⟨id, kind, body⟩, start + gap.utf8ByteSize, parent⟩ (by simp [siblings])
    intro n hn
    rcases List.mem_append.1 hn with hn | hn
    · rcases List.mem_cons.1 hn with rfl | hn
      · exact here
      · exact ihb (down _ here) n hn
    · exact ihn (fun m hm => h m (List.mem_cons_of_mem _ hm)) n hn

namespace Tree

variable {t : Tree} {n m p : Placed}

/-- The nodes that are reached from the root through lists of children. -/
inductive Reached (t : Tree) : Placed → Prop where
  | top : Reached t t.top
  | child {p n : Placed} (h : Reached t p) (hn : n ∈ p.children) : Reached t n

/-! ### The nodes listed -/

theorem top_mem_nodes : t.top ∈ t.nodes := by simp [nodes_eq, Placed.preorder]

theorem siblings_content : t.content.siblings 0 none = [t.top] := by
  simp [content, Content.siblings, top]

theorem mem_nodes_of_mem_children (hp : p ∈ t.nodes) (hn : n ∈ p.children) : n ∈ t.nodes :=
  Content.mem_preorder_of_mem_children hp hn

/-- A live node ends within the source. -/
theorem stop_le (hn : n ∈ t.nodes) : n.span.stop ≤ t.source.utf8ByteSize := by
  have := (Content.within hn).2
  rwa [Nat.zero_add, Content.width_eq] at this

/-- Pre-order lists the nodes that are reached. -/
theorem mem_nodes_iff_reached : n ∈ t.nodes ↔ t.Reached n := by
  constructor
  · refine Content.preorder_induction (fun p hp m hm => .child hp hm) t.content (fun m hm => ?_) n
    rw [siblings_content, List.mem_singleton] at hm
    exact hm ▸ .top
  · intro h
    induction h with
    | top => exact top_mem_nodes
    | child _ hn ih => exact mem_nodes_of_mem_children ih hn

/-- The nodes are the root and the children of nodes, each once. -/
theorem nodes_perm (t : Tree) : t.nodes.Perm (t.top :: t.nodes.flatMap Placed.children) := by
  have h := Content.preorder_perm t.content 0 none
  rwa [siblings_content] at h

theorem ids_nodes (t : Tree) : t.nodes.map (·.id) = t.content.ids :=
  Content.ids_preorder t.content 0 none

theorem ids_content (t : Tree) : t.content.ids = t.root.id :: t.root.body.ids := by
  simp [content, Content.ids]

/-! ### Identities -/

theorem Numbered.nodup_nodes (h : t.Numbered) : (t.nodes.map (·.id)).Nodup := by
  rw [ids_nodes]; exact h.nodup

theorem Numbered.eq_of_id_eq (h : t.Numbered) (hn : n ∈ t.nodes) (hm : m ∈ t.nodes)
    (e : n.id = m.id) : n = m :=
  Content.eq_of_id_eq h.nodup hn hm e

/-- The node found under an identity is the one that has it. -/
theorem Numbered.node?_eq_some_iff (h : t.Numbered) {id : NodeId} :
    t.node? id = some n ↔ n ∈ t.nodes ∧ n.id = id := by
  constructor
  · intro e
    exact ⟨List.mem_of_find?_eq_some e, by simpa using List.find?_some e⟩
  · rintro ⟨hn, rfl⟩
    exact Content.find?_preorder h.nodup hn

theorem Numbered.node?_id (h : t.Numbered) (hn : n ∈ t.nodes) : t.node? n.id = some n :=
  h.node?_eq_some_iff.2 ⟨hn, rfl⟩

theorem isSome_node?_iff {id : NodeId} : (t.node? id).isSome ↔ id ∈ t.content.ids := by
  rw [← ids_nodes]
  simp [node?]

theorem Numbered.id_le (h : t.Numbered) {id : NodeId} (hid : id ∈ t.content.ids) :
    id ≤ t.root.id := by
  rw [ids_content] at hid
  rcases List.mem_cons.1 hid with rfl | hid
  · exact Nat.le_refl _
  · exact Nat.le_of_lt (h.below id hid)

/-- Of the identities up to that of the root, as many are alive as there are nodes. -/
theorem Numbered.length_alive (h : t.Numbered) :
    ((List.range (t.root.id + 1)).filter fun id => (t.node? id).isSome).length = t.size := by
  have same : ((List.range (t.root.id + 1)).filter fun id => (t.node? id).isSome).Perm
      t.content.ids := by
    refine (List.perm_ext_iff_of_nodup (List.nodup_range.filter _) h.nodup).2 fun id => ?_
    rw [List.mem_filter, isSome_node?_iff, List.mem_range]
    exact ⟨fun hid => hid.2, fun hid => ⟨Nat.lt_succ_of_le (h.id_le hid), hid⟩⟩
  rw [same.length_eq, Content.length_ids, size]

/-! ### Parents -/

/-- Every node but the root is the child of the node it names as its parent. -/
theorem eq_top_or_mem_children (hn : n ∈ t.nodes) :
    n = t.top ∨ ∃ p ∈ t.nodes, n ∈ p.children ∧ n.parent = some p.id := by
  rcases Content.mem_siblings_or_mem_children hn with hn | ⟨p, hp, hn⟩
  · rw [siblings_content, List.mem_singleton] at hn
    exact .inl hn
  · exact .inr ⟨p, hp, hn, Content.parent_of_mem_siblings hn⟩

/-- A node is the child of no other node than the one it names. -/
theorem Numbered.eq_of_mem_children (h : t.Numbered) (hp : p ∈ t.nodes) (hm : m ∈ t.nodes)
    (hnp : n ∈ p.children) (hnm : n ∈ m.children) : p = m := by
  refine h.eq_of_id_eq hp hm (Option.some.inj ?_)
  rw [← Content.parent_of_mem_siblings hnp, ← Content.parent_of_mem_siblings hnm]

/-- The parent of a child is found. -/
theorem Numbered.parent?_of_mem_children (h : t.Numbered) (hp : p ∈ t.nodes)
    (hn : n ∈ p.children) : t.parent? n = some p := by
  rw [parent?, Content.parent_of_mem_siblings hn]
  exact h.node?_id hp

theorem mem_nodes_of_parent? (h : t.parent? n = some p) : p ∈ t.nodes := by
  obtain ⟨id, -, found⟩ := Option.bind_eq_some_iff.1 h
  exact List.mem_of_find?_eq_some found

/-! ### Text -/

/-- The text of a node is the slice of the source that it covers. -/
theorem Numbered.text_eq_slice (h : t.Numbered) (hn : n ∈ t.nodes) :
    n.text = Text.slice t.source n.span.start n.span.stop := by
  obtain ⟨before, after, text, place, -⟩ := Content.alter_text h.nodup hn
  have width : n.body.width = n.text.utf8ByteSize := Content.width_eq n.body
  rw [source, text, Placed.span, place, width, Nat.zero_add, Text.slice_append]

end Tree

end SyntaxLint
