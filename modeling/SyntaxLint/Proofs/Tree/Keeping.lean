import SyntaxLint.Proofs.Tree.Descent

/-!
# Proofs — Trees — new texts for leaves

Where the text of a leaf is replaced no node dies: every node is there still, of the same kind,
below the same parent and with the same children, and every other leaf has the text that it had.

* `Tree.Keeps`: what a replacement keeps.
* `Tree.Numbered.keeps_replaceText`: it does.
* `Tree.LeafText`: a leaf with its text, through replacements of other leaves.
-/

namespace SyntaxLint

/-- Where identities are the same, and kinds by identities, the first of a kind is the same. -/
theorem map_id_find?_kind {ns ms : List Placed} (kind : Kind)
    (ids : ms.map (·.id) = ns.map (·.id))
    (kinds : ∀ n ∈ ns, ∀ m ∈ ms, m.id = n.id → m.kind = n.kind) :
    (ms.find? (·.kind == kind)).map (·.id) = (ns.find? (·.kind == kind)).map (·.id) := by
  induction ns generalizing ms with
  | nil =>
    obtain rfl := List.map_eq_nil_iff.1 ids
    rfl
  | cons n ns ih =>
    obtain ⟨m, ms', rfl, id, ids⟩ := List.map_eq_cons_iff.1 ids
    have rest := ih ids fun n hn m hm =>
      kinds n (List.mem_cons_of_mem _ hn) m (List.mem_cons_of_mem _ hm)
    have here := kinds n List.mem_cons_self m List.mem_cons_self id
    rw [List.find?_cons, List.find?_cons, here]
    cases n.kind == kind with
    | true => simpa using id
    | false => exact rest

namespace Tree

variable {t u w : Tree} {n m b : Placed} {id : NodeId} {x : String}

/-- Every node of a tree is there still, of the same kind, below the same parent and with the same
children. -/
structure Keeps (t u : Tree) : Prop where
  identity : u.identity = t.identity
  found : ∀ id n, t.node? id = some n → ∃ m, u.node? id = some m ∧ n.Kin m ∧
    m.children.map (·.id) = n.children.map (·.id)

namespace Keeps

theorem refl (t : Tree) : t.Keeps t :=
  ⟨rfl, fun _ n found => ⟨n, found, ⟨rfl, rfl, rfl⟩, rfl⟩⟩

theorem trans (h : t.Keeps u) (h' : u.Keeps w) : t.Keeps w := by
  refine ⟨h'.identity.trans h.identity, fun id n found => ?_⟩
  obtain ⟨m, found, kin, children⟩ := h.found id n found
  obtain ⟨l, found, kin', children'⟩ := h'.found id m found
  exact ⟨l, found, kin.trans kin', children'.trans children⟩

/-- The first child of a kind stays the first. -/
theorem child? (h : t.Keeps u) (ht : t.Numbered) (hu : u.Numbered) (hn : n ∈ t.nodes)
    (found : u.node? n.id = some m) (kind : Kind) :
    (m.child? kind).map (·.id) = (n.child? kind).map (·.id) := by
  obtain ⟨m', found', -, children⟩ := h.found n.id n (ht.node?_id hn)
  obtain rfl : m = m' := Option.some.inj (found.symm.trans found')
  refine map_id_find?_kind kind children fun c hc d hd same => ?_
  obtain ⟨d', found', kin, -⟩ := h.found c.id c (ht.node?_id (mem_nodes_of_mem_children hn hc))
  have listed := mem_nodes_of_mem_children (List.mem_of_find?_eq_some found) hd
  rw [← same, hu.node?_id listed] at found'
  obtain rfl := Option.some.inj found'
  exact kin.kind

end Keeps

/-- A live leaf with its text. -/
def LeafText (t : Tree) (id : NodeId) (x : String) : Prop :=
  ∃ n, t.node? id = some n ∧ n.isLeaf = true ∧ n.text = x

theorem Numbered.replaceText (h : t.Numbered) {s : Span} (done : t.replaceText id x = .ok (u, s)) :
    u.Numbered := by
  obtain ⟨n, -, -, -, rfl, -⟩ := replaceText_eq_ok_iff.1 done
  exact h.alter (f := fun _ => .tail x) (fun c => List.nil_sublist c.ids) id

/-- **A replacement keeps every node**, gives the leaf its new text and leaves the texts of the
other leaves. -/
theorem Numbered.keeps_replaceText (h : t.Numbered) {s : Span}
    (done : t.replaceText id x = .ok (u, s)) :
    t.Keeps u ∧ u.LeafText id x ∧ ∀ j y, j ≠ id → t.LeafText j y → u.LeafText j y := by
  obtain ⟨n, n', held, spliced, held', text, -⟩ := h.spliced_replaceText done
  obtain ⟨leaf, identity⟩ : n.isLeaf = true ∧ u.identity = t.identity := by
    obtain ⟨m, found, leaf, -, rfl, -⟩ := replaceText_eq_ok_iff.1 done
    obtain rfl := Option.some.inj (held.symm.trans found)
    exact ⟨leaf, identity_alter _ _ _⟩
  have keeps : ∀ j m, t.node? j = some m → ∃ m', u.node? j = some m' ∧ m.Kin m' ∧
      m'.children.map (·.id) = m.children.map (·.id) ∧ (n ∉ m.preorder → m'.text = m.text) := by
    intro j m found
    obtain ⟨-, rfl⟩ := h.node?_eq_some_iff.1 found
    obtain ⟨m', found', kin, children, text, -⟩ := spliced.kept m found (by simp)
    exact ⟨m', found', kin, by simpa using children, text⟩
  have leaves : ∀ {m m' : Placed}, m.isLeaf = true →
      m'.children.map (·.id) = m.children.map (·.id) → m'.isLeaf = true := by
    intro m m' leaf children
    rw [← Placed.children_eq_nil_iff] at leaf ⊢
    simpa [leaf] using children
  refine ⟨⟨identity, fun j m found => ?_⟩, ⟨n', held', ?_, text⟩, ?_⟩
  · obtain ⟨m', found', kin, children, -⟩ := keeps j m found
    exact ⟨m', found', kin, children⟩
  · obtain ⟨m', found', -, children, -⟩ := keeps id n held
    obtain rfl := Option.some.inj (held'.symm.trans found')
    exact leaves leaf children
  · rintro j y ne ⟨m, found, leaf', rfl⟩
    obtain ⟨m', found', -, children, same⟩ := keeps j m found
    -- a leaf is changed only if it is the one that is replaced
    refine ⟨m', found', leaves leaf' children, same fun inside => ?_⟩
    rw [Placed.preorder, Placed.descendants, Content.preorder_of_isLeaf leaf',
      List.mem_singleton] at inside
    subst inside
    exact ne ((h.node?_eq_some_iff.1 found).2.symm.trans (h.node?_eq_some_iff.1 held).2)

end Tree

end SyntaxLint
