import SyntaxLint.Proofs.Tree.Retext

/-!
# Proofs — Trees — new contents for nodes

A run in which some nodes have a new content each and everything else is as it was.  Where the new
contents name no nodes but those that were there, a further change of one such node is a change of
its new content, and every node that is not below one of them is still there.

* `Content.refit`: new contents for nodes.
* `Content.width_refit_le`, `Content.width_retext_le`: how long the run becomes.
* `Content.alter_refit`: one of them changed once more.
* `Content.mem_members_refit`: a node that is still there.
* `Content.eq_or_mem_of_members_refit`: the nodes after the change.
-/

namespace SyntaxLint

/-- The run in which every node that `g` gives a content has that content. -/
def Content.refit (g : Node → Option Content) : Content → Content
  | .tail s => .tail s
  | .node gap id kind body next =>
    .node gap id kind ((g ⟨id, kind, body⟩).getD (body.refit g)) (next.refit g)

/-- The node with its new content, or new contents below it. -/
def Node.refit (g : Node → Option Content) (n : Node) : Node :=
  { n with body := (g n).getD (n.body.refit g) }

namespace Content

variable {c : Content} {g g' : Node → Option Content} {n m : Node} {target : NodeId}
  {f : Content → Content}

theorem refit_congr (same : ∀ n ∈ c.members, g n = g' n) : c.refit g = c.refit g' := by
  induction c with
  | tail s => rfl
  | node gap id kind body next ihb ihn =>
    simp only [members, List.cons_append, List.mem_cons, List.mem_append] at same
    rw [refit, refit, same _ (.inl rfl), ihb fun n hn => same n (.inr (.inl hn)),
      ihn fun n hn => same n (.inr (.inr hn))]

/-- Where every new content is the old one, nothing changes. -/
theorem refit_of_same (same : ∀ n ∈ c.members, ∀ x, g n = some x → x = n.body) :
    c.refit g = c := by
  induction c with
  | tail s => rfl
  | node gap id kind body next ihb ihn =>
    simp only [members, List.cons_append, List.mem_cons, List.mem_append] at same
    rw [refit, ihn fun n hn => same n (.inr (.inr hn))]
    cases e : g ⟨id, kind, body⟩ with
    | none => rw [Option.getD_none, ihb fun n hn => same n (.inr (.inl hn))]
    | some x => rw [Option.getD_some, same _ (.inl rfl) x e]

/-- New contents name no nodes that were not there. -/
def Shrinks (g : Node → Option Content) : Prop :=
  ∀ n x, g n = some x → x.ids.Sublist n.body.ids

theorem ids_refit_sublist (hg : Shrinks g) (c : Content) : (c.refit g).ids.Sublist c.ids := by
  induction c with
  | tail s => exact List.Sublist.refl _
  | node gap id kind body next ihb ihn =>
    rw [refit, ids, ids]
    cases e : g ⟨id, kind, body⟩ with
    | none => exact (ihb.append ihn).cons_cons id
    | some x => exact ((hg _ x e).append ihn).cons_cons id

/-- **A further change of a node that has a new content** is a change of that content. -/
theorem alter_refit (hd : c.ids.Nodup) (hg : Shrinks g)
    (here : ∀ n ∈ c.members, n.id = target → (g n).isSome)
    (above : ∀ n ∈ c.members, (g n).isSome → target ∉ n.body.ids) :
    (c.refit g).alter target f = c.refit fun n => if n.id = target then (g n).map f else g n := by
  induction c with
  | tail s => rfl
  | node gap id kind body next ihb ihn =>
    obtain ⟨idb, idn, hb, hx, -⟩ := nodup_node hd
    simp only [members, List.cons_append, List.mem_cons, List.mem_append] at here above
    have beside := ihn hx (fun n hn => here n (.inr (.inr hn)))
      fun n hn => above n (.inr (.inr hn))
    rw [refit, refit, alter]
    by_cases e : id = target
    · -- no other node has the identity, so nothing else is changed
      subst e
      obtain ⟨x, new⟩ := Option.isSome_iff_exists.1 (here ⟨id, kind, body⟩ (.inl rfl) rfl)
      have other : (next.refit fun n => if n.id = id then (g n).map f else g n) = next.refit g :=
        refit_congr fun n hn => if_neg fun (same : n.id = id) =>
          idn (same ▸ id_mem_of_mem_members hn)
      rw [if_pos rfl, if_pos rfl, other, new]
      rfl
    · rw [if_neg e, if_neg e, beside]
      cases new : g ⟨id, kind, body⟩ with
      | some x =>
        have out : target ∉ x.ids := fun h =>
          above ⟨id, kind, body⟩ (.inl rfl) (by simp [new]) ((hg _ x new).subset h)
        rw [Option.getD_some, Option.getD_some, alter_of_not_mem out]
      | none =>
        rw [Option.getD_none, Option.getD_none, ihb hb (fun n hn => here n (.inr (.inl hn)))
          fun n hn => above n (.inr (.inl hn))]

/-- A change of one node gives it a new content. -/
theorem alter_eq_refit (hd : c.ids.Nodup) (target : NodeId) (f : Content → Content) :
    c.alter target f = c.refit fun n => if n.id = target then some (f n.body) else none := by
  induction c with
  | tail s => rfl
  | node gap id kind body next ihb ihn =>
    obtain ⟨-, idn, hb, hx, -⟩ := nodup_node hd
    rw [alter, refit]
    by_cases e : id = target
    · have other : next.refit (fun n => if n.id = target then some (f n.body) else none) = next :=
        refit_of_same fun n hn x new => by
          have ne : n.id ≠ target := fun same => idn (e ▸ same ▸ id_mem_of_mem_members hn)
          simp [ne] at new
      rw [if_pos e, if_pos e, other]
      rfl
    · rw [if_neg e, if_neg e, ihb hb, ihn hx]
      rfl

/-- New texts are new contents. -/
theorem retext_eq_refit (h : Node → Option String) (c : Content) :
    c.retext h = c.refit fun n => (h n).map .tail := by
  induction c with
  | tail s => rfl
  | node gap id kind body next ihb ihn => rw [retext, refit, ihb, ihn]

/-- A run becomes longer by at most `k` bytes for each node whose new content may be longer than
the old, if none of these is longer by more. -/
theorem width_refit_le {k : Nat} {grows : Node → Bool}
    (bound : ∀ n ∈ c.members, ∀ x, g n = some x → x.width ≤ n.body.width + k * (grows n).toNat) :
    (c.refit g).width ≤ c.width + k * c.members.countP grows := by
  induction c with
  | tail s => exact Nat.le_refl _
  | node gap id kind body next ihb ihn =>
    simp only [members, List.cons_append, List.mem_cons, List.mem_append] at bound
    have below := ihb fun n hn => bound n (.inr (.inl hn))
    have behind := ihn fun n hn => bound n (.inr (.inr hn))
    have count : k * (Content.node gap id kind body next).members.countP grows =
        k * body.members.countP grows + k * next.members.countP grows +
          k * (grows ⟨id, kind, body⟩).toNat := by
      rw [members, List.cons_append, List.countP_cons, List.countP_append, ← Nat.mul_add,
        ← Nat.mul_add]
      cases grows ⟨id, kind, body⟩ <;> rfl
    rw [refit, width, width, count]
    cases e : g ⟨id, kind, body⟩ with
    | some x =>
      have here : x.width ≤ body.width + k * (grows ⟨id, kind, body⟩).toNat :=
        bound _ (.inl rfl) x e
      rw [Option.getD_some]
      omega
    | none =>
      rw [Option.getD_none]
      omega

/-- A run becomes longer by at most `k` bytes for each node whose new text may be longer than the
old, if none of these is longer by more. -/
theorem width_retext_le {h : Node → Option String} {k : Nat} {grows : Node → Bool}
    (bound : ∀ n ∈ c.members, ∀ x, h n = some x →
      x.utf8ByteSize ≤ n.body.width + k * (grows n).toNat) :
    (c.retext h).width ≤ c.width + k * c.members.countP grows := by
  rw [retext_eq_refit]
  refine width_refit_le fun n hn x new => ?_
  obtain ⟨s, given, rfl⟩ := Option.map_eq_some_iff.1 new
  exact bound n hn s given

/-- **A node that is below none with a new content is still there**, with its new content. -/
theorem mem_members_refit (hn : n ∈ c.members)
    (above : ∀ m ∈ c.members, (g m).isSome → n.id ∉ m.body.ids) :
    n.refit g ∈ (c.refit g).members := by
  induction c with
  | tail s => simp [members] at hn
  | node gap id kind body next ihb ihn =>
    simp only [members, List.cons_append, List.mem_cons, List.mem_append] at hn above
    rw [refit, members]
    rcases hn with rfl | hn | hn
    · exact List.mem_append_left _ List.mem_cons_self
    · refine List.mem_append_left _ (List.mem_cons_of_mem _ ?_)
      cases e : g ⟨id, kind, body⟩ with
      | none => exact ihb hn fun m hm => above m (.inr (.inl hm))
      | some x => exact absurd (id_mem_of_mem_members hn) (above _ (.inl rfl) (by simp [e]))
    · exact List.mem_append_right _ (ihn hn fun m hm => above m (.inr (.inr hm)))

/-- A node after the change is a node before it, changed, or is in a new content. -/
theorem eq_or_mem_of_members_refit (hm : m ∈ (c.refit g).members) :
    (∃ n ∈ c.members, m = n.refit g) ∨
      ∃ n ∈ c.members, ∃ x, g n = some x ∧ m ∈ x.members := by
  induction c with
  | tail s => simp [refit, members] at hm
  | node gap id kind body next ihb ihn =>
    simp only [refit, members, List.cons_append, List.mem_cons, List.mem_append] at hm ⊢
    rcases hm with rfl | hm | hm
    · exact .inl ⟨_, .inl rfl, rfl⟩
    · cases e : g ⟨id, kind, body⟩ with
      | some x => exact .inr ⟨_, .inl rfl, x, e, by simpa [e] using hm⟩
      | none =>
        rw [e, Option.getD_none] at hm
        rcases ihb hm with ⟨n, hn, same⟩ | ⟨n, hn, x, same, mem⟩
        · exact .inl ⟨n, .inr (.inl hn), same⟩
        · exact .inr ⟨n, .inr (.inl hn), x, same, mem⟩
    · rcases ihn hm with ⟨n, hn, same⟩ | ⟨n, hn, x, same, mem⟩
      · exact .inl ⟨n, .inr (.inr hn), same⟩
      · exact .inr ⟨n, .inr (.inr hn), x, same, mem⟩

end Content

namespace Node

variable {g : Node → Option Content} {n : Node}

@[simp] theorem id_refit (g : Node → Option Content) (n : Node) : (n.refit g).id = n.id := rfl

@[simp] theorem kind_refit (g : Node → Option Content) (n : Node) : (n.refit g).kind = n.kind :=
  rfl

theorem refit_of_isLeaf (leaf : n.body.isLeaf = true) (none : g n = none) : n.refit g = n := by
  obtain ⟨id, kind, body⟩ := n
  cases body with
  | tail s => rw [refit, none]; rfl
  | node => simp [Content.isLeaf] at leaf

end Node

namespace Tree

variable {t : Tree} {g g' : Node → Option Content} {f : Content → Content} {id : NodeId}

/-- The tree in which every node that `g` gives a content has that content. -/
def refit (g : Node → Option Content) (t : Tree) : Tree := { t with root := t.root.refit g }

theorem content_refit (g : Node → Option Content) (t : Tree) :
    (t.refit g).content = t.content.refit g := rfl

theorem refit_congr (same : ∀ n ∈ t.content.members, g n = g' n) : t.refit g = t.refit g' :=
  eq_of_content (Content.refit_congr same) rfl

theorem refit_of_same (same : ∀ n ∈ t.content.members, ∀ x, g n = some x → x = n.body) :
    t.refit g = t :=
  eq_of_content (Content.refit_of_same same) rfl

theorem Numbered.refit (ht : t.Numbered) (hg : Content.Shrinks g) : (t.refit g).Numbered := by
  have sub : (t.root.refit g).body.ids.Sublist t.root.body.ids := by
    rw [Node.refit]
    cases e : g t.root with
    | none => exact Content.ids_refit_sublist hg t.root.body
    | some x => exact hg _ x e
  exact ⟨ht.distinct.sublist sub, fun id hid => ht.below id (sub.subset hid)⟩

theorem alter_eq_refit (ht : t.Numbered) (id : NodeId) (f : Content → Content) :
    t.alter id f = t.refit fun n => if n.id = id then some (f n.body) else none := by
  refine eq_of_content ?_ ?_
  · rw [content_alter, content_refit]
    exact Content.alter_eq_refit ht.nodup id f
  · rw [Tree.alter]
    split <;> rfl

theorem alter_refit (ht : t.Numbered) (hg : Content.Shrinks g)
    (here : ∀ n ∈ t.content.members, n.id = id → (g n).isSome)
    (above : ∀ n ∈ t.content.members, (g n).isSome → id ∉ n.body.ids) :
    (t.refit g).alter id f = t.refit fun n => if n.id = id then (g n).map f else g n := by
  refine eq_of_content ?_ ?_
  · rw [content_alter, content_refit, content_refit]
    exact Content.alter_refit ht.nodup hg here above
  · rw [Tree.alter]
    split <;> rfl

end Tree

end SyntaxLint
