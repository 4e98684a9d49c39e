import SyntaxLint.Proofs.Tree.Slots
import SyntaxLint.Tree.Outline

/-!
# Proofs — Trees — places

Where one node of a run has its content changed, the nodes that begin before it stay where they are
and those behind it move by as much as it grows or shrinks.  And where a node stands is told by the
stored form of its tree.

* `Content.exists_carried`: where nodes stand after a change.
* `Tree.exists_mem_of_document`: nodes of trees with the same stored form.
-/

namespace SyntaxLint

namespace Content

variable {c c' : Content} {start place : Nat} {parent : Option NodeId} {p m m' : Placed}

/-- A node `m` that is at `m'` once the content of `p` has the given width: it begins before that
content and stays, or it is behind it and moves. -/
structure Carried (p : Placed) (width : Nat) (m m' : Placed) : Prop where
  id : m'.id = m.id
  start : m.start ≤ p.start ∧ m'.start = m.start ∨
    p.span.stop ≤ m.start ∧ m'.start + p.body.width = m.start + width

/-- What is behind a changed node moves. -/
theorem exists_carried_of_stop_le {width : Nat} (moves : place + p.body.width = start + width)
    (behind : p.span.stop ≤ start) (hm : m ∈ c.preorder start parent) :
    ∃ m' ∈ c.preorder place parent, Carried p width m m' := by
  have first := (within hm).1
  have shift : (place : Int) = start + (width - p.body.width : Int) := by omega
  rw [preorder_shift shift]
  refine ⟨_, List.mem_map_of_mem hm, rfl, .inr ⟨by omega, ?_⟩⟩
  simp only [Placed.shift, shifted, Placed.span] at behind ⊢
  omega

/-- **Where a node stands after a change of another**, unless it is below that. -/
theorem exists_carried (hd : c.ids.Nodup) (hp : p ∈ c.preorder start parent)
    (hm : m ∈ c.preorder start parent) (out : m.id ∉ p.body.ids) (f : Content → Content) :
    ∃ m' ∈ (c.alter p.id f).preorder start parent, Carried p (f p.body).width m m' := by
  -- along the run: the changed node is this one, below this one or behind it, and so is the other
  induction c generalizing start parent with
  | tail s => simp [preorder] at hp
  | node gap id kind body next ihb ihn =>
    obtain ⟨idb, idn, hb, hx, apart⟩ := nodup_node hd
    rcases List.mem_append.1 hp with hp | hp
    · rcases List.mem_cons.1 hp with rfl | hp
      · rw [alter, if_pos rfl, preorder]
        rcases List.mem_append.1 hm with hm | hm
        · rcases List.mem_cons.1 hm with rfl | hm
          · exact ⟨_, List.mem_append_left _ List.mem_cons_self, rfl, .inl ⟨Nat.le_refl _, rfl⟩⟩
          · exact absurd (id_mem_ids hm) out
        · obtain ⟨m', hm', carried⟩ := exists_carried_of_stop_le
            (p := ⟨⟨id, kind, body⟩, start + gap.utf8ByteSize, parent⟩)
            (Nat.add_right_comm (start + gap.utf8ByteSize) (f body).width body.width)
            (Nat.le_refl _) hm
          exact ⟨m', List.mem_append_right _ hm', carried⟩
      · have mem := id_mem_ids hp
        have inside := within hp
        rw [alter, if_neg fun (e : id = p.id) => idb (e ▸ mem), alter_of_not_mem (apart _ mem),
          preorder]
        rcases List.mem_append.1 hm with hm | hm
        · rcases List.mem_cons.1 hm with rfl | hm
          · exact ⟨_, List.mem_append_left _ List.mem_cons_self, rfl, .inl ⟨inside.1, rfl⟩⟩
          · obtain ⟨m', hm', carried⟩ := ihb hb hp hm
            exact ⟨m', List.mem_append_left _ (List.mem_cons_of_mem _ hm'), carried⟩
        · have grows := width_alter hb hp f
          have moves : start + gap.utf8ByteSize + (body.alter p.id f).width + p.body.width =
              start + gap.utf8ByteSize + body.width + (f p.body).width := by omega
          obtain ⟨m', hm', carried⟩ := exists_carried_of_stop_le moves inside.2 hm
          exact ⟨m', List.mem_append_right _ hm', carried⟩
    · have mem := id_mem_ids hp
      have later := (within hp).1
      rw [alter, if_neg fun (e : id = p.id) => idn (e ▸ mem),
        alter_of_not_mem fun h => apart _ h mem, preorder]
      rcases List.mem_append.1 hm with hm | hm
      · refine ⟨m, List.mem_append_left _ hm, rfl, .inl ⟨?_, rfl⟩⟩
        rcases List.mem_cons.1 hm with rfl | hm
        · exact Nat.le_trans (Nat.le_add_right _ _) later
        · exact Nat.le_trans (Nat.le_trans (Nat.le_add_right _ _) (within hm).2) later
      · obtain ⟨m', hm', carried⟩ := ihn hx hp hm
        exact ⟨m', List.mem_append_right _ hm', carried⟩

/-- A node of a run with the same outline. -/
theorem exists_mem_of_outline (same : c.outline start = c'.outline start)
    (hp : p ∈ c.preorder start parent) (parent' : Option NodeId) :
    ∃ p' ∈ c'.preorder start parent', p'.kind = p.kind ∧ p'.span = p.span := by
  induction c generalizing c' start parent parent' with
  | tail s => simp [preorder] at hp
  | node gap id kind body next ihb ihn =>
    cases c' with
    | tail s => simp [outline] at same
    | node gap' id' kind' body' next' =>
      simp only [outline, Outline.node.injEq, Span.mk.injEq] at same
      obtain ⟨rfl, ⟨first, last⟩, below, beside⟩ := same
      rw [← first] at below beside last
      have width : body'.width = body.width := by omega
      rw [width] at beside
      rw [preorder, ← first, width]
      rcases List.mem_append.1 hp with hp | hp
      · rcases List.mem_cons.1 hp with rfl | hp
        · exact ⟨_, List.mem_append_left _ List.mem_cons_self, rfl, by simp [Placed.span, width]⟩
        · obtain ⟨p', hp', kept⟩ := ihb below hp (some id')
          exact ⟨p', List.mem_append_left _ (List.mem_cons_of_mem _ hp'), kept⟩
      · obtain ⟨p', hp', kept⟩ := ihn beside hp parent'
        exact ⟨p', List.mem_append_right _ hp', kept⟩

end Content

/-- **A node of a tree with the same stored form**: one of that kind stands there. -/
theorem Tree.exists_mem_of_document {t u : Tree} (same : t.document = u.document) {p : Placed}
    (hp : p ∈ t.nodes) : ∃ p' ∈ u.nodes, p'.kind = p.kind ∧ p'.span = p.span := by
  refine Content.exists_mem_of_outline ?_ hp none
  have outline : ∀ x : Tree, x.content.outline 0 =
      .node x.document.root.kind x.document.root.span x.document.root.children .done := fun x => by
    simp [content, Content.outline, document, Tree.outline, top, Placed.span]
  rw [outline, outline, same]

end SyntaxLint
