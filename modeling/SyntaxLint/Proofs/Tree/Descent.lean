import SyntaxLint.Proofs.Tree.Spliced

/-!
# Proofs — Trees — what is left of a tree

An edit adds no node and moves none to another parent.  So a tree *descends* from the tree it was:
it has the same identity, and each of its nodes has been a node of that tree, of the same kind and
below the same parent.  What has died stays dead.

* `Tree.Descends`: what is left of a tree.
* `Tree.Numbered.descends_tryEdit`: an edit, made or refused.
* `Tree.Descends.node?_eq_none`: a dead identity stays dead.
-/

namespace SyntaxLint.Tree

/-- What a tree has become: its identity stays, and the nodes that are left keep their identities,
kinds and parents. -/
structure Descends (t u : Tree) : Prop where
  identity : u.identity = t.identity
  kept : ∀ n ∈ u.nodes, ∃ m ∈ t.nodes, m.Kin n

variable {t u w : Tree} {n q : Placed} {id : NodeId}

namespace Descends

theorem refl (t : Tree) : t.Descends t := ⟨rfl, fun n hn => ⟨n, hn, rfl, rfl, rfl⟩⟩

theorem trans (h : t.Descends u) (h' : u.Descends w) : t.Descends w := by
  refine ⟨h'.identity.trans h.identity, fun n hn => ?_⟩
  obtain ⟨m, hm, kin⟩ := h'.kept n hn
  obtain ⟨l, hl, kin'⟩ := h.kept m hm
  exact ⟨l, hl, kin'.trans kin⟩

/-- What is found under the identity of a node is that node. -/
theorem kin (h : t.Descends u) (ht : t.Numbered) (hn : n ∈ t.nodes)
    (found : u.node? n.id = some q) : n.Kin q := by
  obtain ⟨m, hm, kin⟩ := h.kept q (List.mem_of_find?_eq_some found)
  have same : q.id = n.id := by simpa using List.find?_some found
  rwa [ht.eq_of_id_eq hm hn (kin.id.symm.trans same)] at kin

/-- **A dead identity stays dead.** -/
theorem node?_eq_none (h : t.Descends u) (dead : t.node? id = none) : u.node? id = none := by
  rw [node?, List.find?_eq_none] at dead ⊢
  intro n hn
  obtain ⟨m, hm, kin⟩ := h.kept n hn
  rw [kin.id]
  exact dead m hm

end Descends

/-! ### Edits -/

/-- Where a stretch of the source is replaced, what is left are nodes that were there. -/
theorem Numbered.descends_of_spliced (ht : t.Numbered) (hu : u.Numbered) {owner : Placed}
    {removed : List NodeId} {cut : Span} {text : String} (identity : u.identity = t.identity)
    (spliced : t.Spliced u owner removed cut text) : t.Descends u := by
  refine ⟨identity, fun n hn => ?_⟩
  have found := hu.node?_id hn
  obtain ⟨alive, keep⟩ := (spliced.alive n.id).1 (Option.isSome_of_eq_some found)
  obtain ⟨m, held⟩ := Option.isSome_iff_exists.1 alive
  obtain ⟨hm, same⟩ := ht.node?_eq_some_iff.1 held
  obtain ⟨m', found', kin, -⟩ := spliced.kept m (same ▸ held) (same ▸ keep)
  rw [same, found] at found'
  obtain rfl := Option.some.inj found'
  exact ⟨m, hm, kin⟩

theorem identity_alter (t : Tree) (target : NodeId) (f : Content → Content) :
    (t.alter target f).identity = t.identity := by
  rw [alter]
  split <;> rfl

theorem identity_tryEdit (t : Tree) (e : Edit) : (t.tryEdit e).tree.identity = t.identity := by
  rcases tree_tryEdit t e with same | ⟨target, f, change, -⟩
  · rw [same]
  · rw [change, identity_alter]

/-- **An edit leaves nodes that were there.** -/
theorem Numbered.descends_tryEdit (h : t.Numbered) (e : Edit) : t.Descends (t.tryEdit e).tree := by
  have hu := h.tryEdit e
  have identity := identity_tryEdit t e
  cases done : t.edit e with
  | error f =>
    have same : (t.tryEdit e).tree = t := by rw [Tree.tryEdit, done]
    rw [same]
    exact .refl t
  | ok r =>
    obtain ⟨u, s⟩ := r
    have made : (t.tryEdit e).tree = u := by rw [Tree.tryEdit, done]
    rw [made] at hu identity ⊢
    cases e with
    | replace id text =>
      obtain ⟨n, -, -, spliced, -⟩ := h.spliced_replaceText done
      exact h.descends_of_spliced hu identity spliced
    | remove parent first last =>
      obtain ⟨p, a, b, i, j, -, -, -, -, -, -, -, spliced⟩ := h.spliced_removeRange done
      exact h.descends_of_spliced hu identity spliced

end SyntaxLint.Tree
