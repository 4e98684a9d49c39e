import SyntaxLint.Proofs.Tree.Nodes

/-!
# Proofs — Trees — a change of one node

A run in which the content of one node is changed.  The text changes where the node stands and
nowhere else; every node outside the changed content keeps its identity, kind and parent; and
only identities below the node can be lost or gained.

* `Content.alter_text`: the text before and after a node is left as it is.
* `Content.exists_mem_alter`: what becomes of a node that the change keeps.
* `Content.mem_ids_alter`: the identities after a change.
-/

namespace SyntaxLint

/-- The same node, with whatever content and wherever it stands. -/
structure Placed.Kin (n m : Placed) : Prop where
  id : m.id = n.id
  kind : m.kind = n.kind
  parent : m.parent = n.parent

theorem Placed.Kin.trans {n m l : Placed} (h : n.Kin m) (h' : m.Kin l) : n.Kin l :=
  ⟨h'.id.trans h.id, h'.kind.trans h.kind, h'.parent.trans h.parent⟩

namespace Content

variable {c : Content} {start : Nat} {parent : Option NodeId} {target : NodeId}
  {f : Content → Content} {n m : Placed}

/-! ### Nothing to change -/

theorem alter_of_not_mem (h : target ∉ c.ids) : c.alter target f = c := by
  induction c with
  | tail s => rfl
  | node gap id kind body next ihb ihn =>
    simp only [ids, List.cons_append, List.mem_cons, List.mem_append, not_or] at h
    rw [alter, if_neg (Ne.symm h.1), ihb h.2.1, ihn h.2.2]

/-- The identities of a run with distinct ones: those of its first node, below it and after it. -/
theorem nodup_node {gap : String} {id : NodeId} {kind : Kind} {body next : Content}
    (hd : (node gap id kind body next).ids.Nodup) :
    id ∉ body.ids ∧ id ∉ next.ids ∧ body.ids.Nodup ∧ next.ids.Nodup ∧
      ∀ x ∈ body.ids, x ∉ next.ids := by
  simp only [ids, List.cons_append, List.nodup_cons, List.mem_append, not_or,
    List.nodup_append] at hd
  exact ⟨hd.1.1, hd.1.2, hd.2.1, hd.2.2.1, fun x hb hn => hd.2.2.2 x hb x hn rfl⟩

/-! ### Text -/

/-- **The text of a changed run.**  The text before a node and the text after it stay, whatever
its content becomes. -/
theorem alter_text (hd : c.ids.Nodup) (hn : n ∈ c.preorder start parent) :
    ∃ before after, c.text = before ++ n.text ++ after ∧
      n.start = start + before.utf8ByteSize ∧
      ∀ f, (c.alter n.id f).text = before ++ (f n.body).text ++ after := by
  induction c generalizing start parent with
  | tail s => simp [preorder] at hn
  | node gap id kind body next ihb ihn =>
    obtain ⟨idb, idn, hb, hx, apart⟩ := nodup_node hd
    rcases List.mem_append.1 hn with hn | hn
    · rcases List.mem_cons.1 hn with rfl | hn
      · exact ⟨gap, next.text, by simp [Placed.text], rfl, fun f => by simp [alter]⟩
      · obtain ⟨before, after, text, place, change⟩ := ihb hb hn
        have mem := id_mem_ids hn
        have ne : id ≠ n.id := fun e => idb (e ▸ mem)
        refine ⟨gap ++ before, after ++ next.text, ?_, ?_, fun f => ?_⟩
        · simp only [text_node, text, String.append_assoc]
        · rw [place, String.utf8ByteSize_append]; omega
        · rw [alter, if_neg ne, alter_of_not_mem (apart _ mem), text_node,
            change f]
          simp only [String.append_assoc]
    · obtain ⟨before, after, text, place, change⟩ := ihn hx hn
      have mem := id_mem_ids hn
      have ne : id ≠ n.id := fun e => idn (e ▸ mem)
      refine ⟨gap ++ body.text ++ before, after, ?_, ?_, fun f => ?_⟩
      · simp only [text_node, text, String.append_assoc]
      · rw [place, String.utf8ByteSize_append, String.utf8ByteSize_append, ← width_eq]; omega
      · rw [alter, if_neg ne, alter_of_not_mem fun hb => apart _ hb mem, text_node, change f]
        simp only [String.append_assoc]

/-- A run that holds a changed node grows or shrinks as that does. -/
theorem width_alter (hd : c.ids.Nodup) (hn : n ∈ c.preorder start parent) (f : Content → Content) :
    (c.alter n.id f).width + n.body.width = c.width + (f n.body).width := by
  obtain ⟨before, after, text, -, change⟩ := alter_text hd hn
  have size := congrArg String.utf8ByteSize text
  have size' := congrArg String.utf8ByteSize (change f)
  simp only [String.utf8ByteSize_append, ← width_eq, Placed.text] at size size'
  omega

/-! ### Identities -/

/-- The identities of a changed run: those outside the node's content, and those of its new
content. -/
theorem mem_ids_alter (hd : c.ids.Nodup) (hn : n ∈ c.preorder start parent) {x : NodeId} :
    x ∈ (c.alter n.id f).ids ↔ x ∈ c.ids ∧ x ∉ n.body.ids ∨ x ∈ (f n.body).ids := by
  induction c generalizing start parent with
  | tail s => simp [preorder] at hn
  | node gap id kind body next ihb ihn =>
    obtain ⟨idb, idn, hb, hx, apart⟩ := nodup_node hd
    rcases List.mem_append.1 hn with hn | hn
    · rcases List.mem_cons.1 hn with rfl | hn
      · simp only [alter, if_pos, ids, List.cons_append, List.mem_cons, List.mem_append]
        have := apart x
        grind
      · have mem := id_mem_ids hn
        have below := ids_subset_of_mem hn
        have := ihb hb hn
        have ne : id ≠ n.id := fun e => idb (e ▸ mem)
        rw [alter, if_neg ne, alter_of_not_mem (apart _ mem)]
        simp only [ids, List.cons_append, List.mem_cons, List.mem_append, this]
        have hx := apart x
        have hy : x ∈ n.body.ids → x ∈ body.ids := fun h => below h
        have hz : x = id → x ∉ body.ids := fun e => e ▸ idb
        grind
    · have mem := id_mem_ids hn
      have below := ids_subset_of_mem hn
      have := ihn hx hn
      have ne : id ≠ n.id := fun e => idn (e ▸ mem)
      rw [alter, if_neg ne, alter_of_not_mem fun hb => apart _ hb mem]
      simp only [ids, List.cons_append, List.mem_cons, List.mem_append, this]
      have hx := apart x
      have hy : x ∈ n.body.ids → x ∈ next.ids := fun h => below h
      have hz : x = id → x ∉ next.ids := fun e => e ▸ idn
      grind

/-- A change that only drops identities of the content drops only identities of the run. -/
theorem ids_alter_sublist (hf : ∀ c, (f c).ids.Sublist c.ids) :
    (c.alter target f).ids.Sublist c.ids := by
  induction c with
  | tail s => exact List.Sublist.refl _
  | node gap id kind body next ihb ihn =>
    rw [alter]
    split
    · exact ((hf body).append_right _).cons_cons id
    · exact (ihb.append ihn).cons_cons id

/-! ### Nodes -/

/-- The content of a node after the change. -/
def altered (target : NodeId) (f : Content → Content) (n : Placed) : Content :=
  if n.id = target then f n.body else n.body.alter target f

theorem altered_of_not_mem (h : n.id ≠ target) (hb : target ∉ n.body.ids) :
    altered target f n = n.body := by
  rw [altered, if_neg h, alter_of_not_mem hb]

/-- A node of a run, when the run is moved. -/
theorem exists_mem_moved (h : m ∈ c.preorder start parent) (place : Nat) :
    ∃ m' ∈ c.preorder place parent, m.Kin m' ∧ m'.body = m.body := by
  induction c generalizing start place parent with
  | tail s => simp [preorder] at h
  | node gap id kind body next ihb ihn =>
    rcases List.mem_append.1 h with h | h
    · rcases List.mem_cons.1 h with rfl | h
      · exact ⟨⟨⟨id, kind, body⟩, place + gap.utf8ByteSize, parent⟩, by simp [preorder],
          ⟨rfl, rfl, rfl⟩, rfl⟩
      · obtain ⟨m', hm', kin, same⟩ := ihb h (place + gap.utf8ByteSize)
        exact ⟨m', List.mem_append_left _ (List.mem_cons_of_mem _ hm'), kin, same⟩
    · obtain ⟨m', hm', kin, same⟩ := ihn h (place + gap.utf8ByteSize + body.width)
      exact ⟨m', List.mem_append_right _ hm', kin, same⟩

/-- **What becomes of a node.**  Where a change of one node keeps the nodes below it whose
identities satisfy `keep`, the changed run keeps every such node, with the same content but for
the change. -/
theorem exists_mem_alter (hd : c.ids.Nodup) (keep : NodeId → Prop)
    (hf : ∀ n ∈ c.preorder start parent, n.id = target → ∀ m ∈ n.descendants, keep m.id →
      ∀ place, ∃ m' ∈ (f n.body).preorder place (some n.id), m.Kin m' ∧ m'.body = m.body)
    (hm : m ∈ c.preorder start parent) (hk : keep m.id) (place : Nat) :
    ∃ m' ∈ (c.alter target f).preorder place parent,
      m.Kin m' ∧ m'.body = altered target f m := by
  induction c generalizing start place parent with
  | tail s => simp [preorder] at hm
  | node gap id kind body next ihb ihn =>
    obtain ⟨idb, idn, hb, hx, apart⟩ := nodup_node hd
    by_cases e : id = target
    · -- identities are distinct, so the change is not in what follows this node
      subst e
      rw [alter, if_pos rfl]
      rcases List.mem_append.1 hm with hm | hm
      · rcases List.mem_cons.1 hm with rfl | hm
        · exact ⟨⟨⟨id, kind, f body⟩, place + gap.utf8ByteSize, parent⟩, by simp [preorder],
            ⟨rfl, rfl, rfl⟩, by simp [altered]⟩
        · obtain ⟨m', hm', kin, same⟩ := hf ⟨⟨id, kind, body⟩, start + gap.utf8ByteSize, parent⟩
            (by simp [preorder]) rfl m hm hk (place + gap.utf8ByteSize)
          refine ⟨m', List.mem_append_left _ (List.mem_cons_of_mem _ hm'), kin, ?_⟩
          have ne : m.id ≠ id := fun e => idb (e ▸ id_mem_ids hm)
          rw [same, altered_of_not_mem ne fun h => idb (ids_subset_of_mem hm h)]
      · obtain ⟨m', hm', kin, same⟩ := exists_mem_moved hm
          (place + gap.utf8ByteSize + (f body).width)
        refine ⟨m', List.mem_append_right _ hm', kin, ?_⟩
        have ne : m.id ≠ id := fun e => idn (e ▸ id_mem_ids hm)
        rw [same, altered_of_not_mem ne fun h => idn (ids_subset_of_mem hm h)]
    · rw [alter, if_neg e]
      rcases List.mem_append.1 hm with hm | hm
      · rcases List.mem_cons.1 hm with rfl | hm
        · exact ⟨⟨⟨id, kind, body.alter target f⟩, place + gap.utf8ByteSize, parent⟩,
            by simp [preorder], ⟨rfl, rfl, rfl⟩, by simp [altered, e]⟩
        · obtain ⟨m', hm', kin, same⟩ := ihb hb (fun n hn => hf n
            (List.mem_append_left _ (List.mem_cons_of_mem _ hn))) hm (place + gap.utf8ByteSize)
          exact ⟨m', List.mem_append_left _ (List.mem_cons_of_mem _ hm'), kin, same⟩
      · obtain ⟨m', hm', kin, same⟩ := ihn hx (fun n hn => hf n (List.mem_append_right _ hn)) hm
          (place + gap.utf8ByteSize + (body.alter target f).width)
        exact ⟨m', List.mem_append_right _ hm', kin, same⟩

end Content

end SyntaxLint
