import Mathlib.Data.List.Nodup
import SyntaxLint.Tree.Basic

/-!
# Proofs — Trees — the nodes of a run

Pre-order lists every node of a run where it stands.  This module says which nodes those are:
the siblings of the run and, for each node listed, its children; and where they stand: a node
listed before another ends before it begins or lies above it, and one listed after all nodes
below another begins after that ends.

* `Content.preorder_perm`: the nodes of a run are its siblings and the children of its nodes,
  each once.
* `Content.find?_preorder`: where identities are distinct, a node is found under its own.
* `Content.preorder_split`: what stands before, below and after a node.
* `Placed.kind_of_child?`: what is found as the first child of a kind.
-/

namespace SyntaxLint

namespace Content

variable {c : Content} {start : Nat} {parent : Option NodeId} {n m : Placed}

/-! ### Siblings, children and descendants -/

theorem preorder_of_isLeaf (h : c.isLeaf = true) (start : Nat) (parent : Option NodeId) :
    c.preorder start parent = [] := by
  cases c with
  | tail s => rfl
  | node => simp [isLeaf] at h

theorem mem_preorder_of_mem_siblings (h : n ∈ c.siblings start parent) :
    n ∈ c.preorder start parent := by
  induction c generalizing start with
  | tail s => simp [siblings] at h
  | node gap id kind body next _ ihn =>
    rcases List.mem_cons.1 h with rfl | h
    · simp [preorder]
    · exact List.mem_append_right _ (ihn h)

theorem parent_of_mem_siblings (h : n ∈ c.siblings start parent) : n.parent = parent := by
  induction c generalizing start with
  | tail s => simp [siblings] at h
  | node gap id kind body next _ ihn =>
    rcases List.mem_cons.1 h with rfl | h
    · rfl
    · exact ihn h

theorem mem_preorder_of_mem_descendants (hn : n ∈ c.preorder start parent)
    (hm : m ∈ n.descendants) : m ∈ c.preorder start parent := by
  induction c generalizing start parent with
  | tail s => simp [preorder] at hn
  | node gap id kind body next ihb ihn =>
    rcases List.mem_append.1 hn with hn | hn
    · rcases List.mem_cons.1 hn with rfl | hn
      · exact List.mem_append_left _ (List.mem_cons_of_mem _ hm)
      · exact List.mem_append_left _ (List.mem_cons_of_mem _ (ihb hn))
    · exact List.mem_append_right _ (ihn hn)

theorem mem_preorder_of_mem_children (hn : n ∈ c.preorder start parent)
    (hm : m ∈ n.children) : m ∈ c.preorder start parent :=
  mem_preorder_of_mem_descendants hn (mem_preorder_of_mem_siblings hm)

/-- Pre-order lists the siblings of a run and the children of the nodes it lists, each once. -/
theorem preorder_perm (c : Content) (start : Nat) (parent : Option NodeId) :
    (c.preorder start parent).Perm
      (c.siblings start parent ++ (c.preorder start parent).flatMap Placed.children) := by
  induction c generalizing start parent with
  | tail s => simp [preorder, siblings]
  | node gap id kind body next ihb ihn =>
    simp only [preorder, siblings, List.flatMap_append, List.flatMap_cons, List.cons_append]
    refine List.Perm.cons _ ?_
    refine ((ihb _ _).append (ihn _ _)).trans ?_
    simp only [List.append_assoc]
    refine ((List.perm_append_comm_assoc _ _ _).append_left _).trans ?_
    exact List.perm_append_comm_assoc _ _ _

/-- A node of a run is one of its siblings or the child of a node of the run. -/
theorem mem_siblings_or_mem_children (h : m ∈ c.preorder start parent) :
    m ∈ c.siblings start parent ∨ ∃ n ∈ c.preorder start parent, m ∈ n.children := by
  have h := (preorder_perm c start parent).mem_iff.1 h
  simpa [List.mem_flatMap] using h

/-! ### Identities -/

theorem id_mem_ids (h : n ∈ c.preorder start parent) : n.id ∈ c.ids := by
  rw [← ids_preorder c start parent]
  exact List.mem_map_of_mem h

theorem exists_mem_preorder {id : NodeId} (h : id ∈ c.ids) (start : Nat)
    (parent : Option NodeId) : ∃ n ∈ c.preorder start parent, n.id = id := by
  rw [← ids_preorder c start parent] at h
  simpa using h

theorem nodup_preorder (hd : c.ids.Nodup) (start : Nat) (parent : Option NodeId) :
    ((c.preorder start parent).map (·.id)).Nodup := by
  rwa [ids_preorder]

/-- Where identities are distinct, an identity is that of one node. -/
theorem eq_of_id_eq (hd : c.ids.Nodup) (hn : n ∈ c.preorder start parent)
    (hm : m ∈ c.preorder start parent) (h : n.id = m.id) : n = m :=
  List.inj_on_of_nodup_map (nodup_preorder hd start parent) hn hm h

/-- Where identities are distinct, a node is found under its own. -/
theorem find?_preorder (hd : c.ids.Nodup) (hn : n ∈ c.preorder start parent) :
    (c.preorder start parent).find? (·.id == n.id) = some n := by
  cases h : (c.preorder start parent).find? (·.id == n.id) with
  | none => exact absurd (List.find?_eq_none.1 h n hn) (by simp)
  | some m =>
    have same : m.id = n.id := by simpa using List.find?_some h
    rw [eq_of_id_eq hd (List.mem_of_find?_eq_some h) hn same]

theorem ids_subset_of_mem (h : n ∈ c.preorder start parent) : n.body.ids ⊆ c.ids := by
  intro id hid
  obtain ⟨m, hm, rfl⟩ := exists_mem_preorder hid n.start (some n.id)
  exact id_mem_ids (mem_preorder_of_mem_descendants h hm)

/-! ### Places -/

/-- A node of a run lies within the run. -/
theorem within (h : n ∈ c.preorder start parent) :
    start ≤ n.start ∧ n.span.stop ≤ start + c.width := by
  induction c generalizing start parent with
  | tail s => simp [preorder] at h
  | node gap id kind body next ihb ihn =>
    rcases List.mem_append.1 h with h | h
    · rcases List.mem_cons.1 h with rfl | h
      · simp only [Placed.span, width]; omega
      · have := ihb h
        simp only [width]; omega
    · have := ihn h
      simp only [width]; omega

/-- What pre-order lists before a node ends before it or lies above it; then come the node and
the nodes below it; and what comes after them begins after the node ends. -/
theorem preorder_split (h : n ∈ c.preorder start parent) :
    ∃ before after, c.preorder start parent = before ++ n.preorder ++ after ∧
      (∀ m ∈ before, m.span.stop ≤ n.start ∨ n ∈ m.descendants) ∧
      ∀ m ∈ after, n.span.stop ≤ m.start := by
  induction c generalizing start parent with
  | tail s => simp [preorder] at h
  | node gap id kind body next ihb ihn =>
    rcases List.mem_append.1 h with h | h
    · rcases List.mem_cons.1 h with rfl | h
      · refine ⟨[], next.preorder (start + gap.utf8ByteSize + body.width) parent, rfl, by simp, ?_⟩
        exact fun m hm => (within hm).1
      · obtain ⟨before, after, split, hb, ha⟩ := ihb h
        refine ⟨⟨⟨id, kind, body⟩, start + gap.utf8ByteSize, parent⟩ :: before,
          after ++ next.preorder (start + gap.utf8ByteSize + body.width) parent, ?_, ?_, ?_⟩
        · simp [preorder, split]
        · intro m hm
          rcases List.mem_cons.1 hm with rfl | hm
          · exact .inr h
          · exact hb m hm
        · intro m hm
          rcases List.mem_append.1 hm with hm | hm
          · exact ha m hm
          · exact Nat.le_trans (within h).2 (within hm).1
    · obtain ⟨before, after, split, hb, ha⟩ := ihn h
      refine ⟨⟨⟨id, kind, body⟩, start + gap.utf8ByteSize, parent⟩ ::
        body.preorder (start + gap.utf8ByteSize) (some id) ++ before, after, ?_, ?_, ha⟩
      · simp [preorder, split]
      · intro m hm
        rcases List.mem_append.1 hm with hm | hm
        · refine .inl (Nat.le_trans ?_ (within h).1)
          rcases List.mem_cons.1 hm with rfl | hm
          · exact Nat.le_refl _
          · exact (within hm).2
        · exact hb m hm

end Content

/-! ### Leaves and first children -/

namespace Placed

variable {n m : Placed} {kind : Kind}

theorem start_le_stop (n : Placed) : n.span.start ≤ n.span.stop := Nat.le_add_right _ _

theorem children_eq_nil_iff : n.children = [] ↔ n.isLeaf = true := by
  rw [children, isLeaf]
  cases n.body <;> simp [Content.siblings, Content.isLeaf]

theorem descendants_eq_nil_iff : n.descendants = [] ↔ n.isLeaf = true := by
  rw [descendants, isLeaf]
  cases n.body <;> simp [Content.preorder, Content.isLeaf]

theorem mem_of_child? (found : n.child? kind = some m) : m ∈ n.children :=
  List.mem_of_find?_eq_some found

theorem kind_of_child? (found : n.child? kind = some m) : m.kind = kind := by
  simpa using List.find?_some found

end Placed

end SyntaxLint
