import SyntaxLint.Proofs.Tree.Edit

/-!
# Proofs — Trees — edits are splices

An edit replaces one stretch of the source by a text and does nothing else.  Nodes die with what
is removed; every other node keeps its identity, kind, parent and place among its siblings; and
its text is what it was, spliced in the same way where the node holds the changed one.

* `Placed.Change`: what an edit does to the content of the node it changes.
* `Tree.Spliced`: what an edit does to a tree.
* `Tree.Numbered.spliced`: the second follows from the first.
-/

namespace SyntaxLint

/-- What becomes of the content of a node: the stretch `cut` is replaced by `text` and the nodes
`removed` are gone. -/
structure Placed.Change (p : Placed) (body : Content) (removed : List NodeId) (cut : Span)
    (text : String) : Prop where
  splits : ∃ before mid after, p.text = before ++ mid ++ after ∧
    body.text = before ++ text ++ after ∧ cut.start = p.start + before.utf8ByteSize ∧
    cut.stop = cut.start + mid.utf8ByteSize
  below : ∀ id ∈ removed, id ∈ p.body.ids
  ids : ∀ id, id ∈ body.ids ↔ id ∈ p.body.ids ∧ id ∉ removed
  kept : ∀ m ∈ p.descendants, m.id ∉ removed → ∀ place,
    ∃ m' ∈ body.preorder place (some p.id), m.Kin m' ∧ m'.body = m.body
  children : ∀ start parent, (body.siblings start parent).map (·.id) =
    (p.children.map (·.id)).filter (· ∉ removed)

/-- What becomes of a tree: the stretch `cut` of its source is replaced by `text`, below the node
`owner`, and the nodes `removed` are gone. -/
structure Tree.Spliced (t t' : Tree) (owner : Placed) (removed : List NodeId) (cut : Span)
    (text : String) : Prop where
  source : t'.source = Text.splice t.source cut.start cut.stop text
  alive : ∀ id, (t'.node? id).isSome ↔ (t.node? id).isSome ∧ id ∉ removed
  root : t'.top.id = t.top.id
  /-- a node that is not removed keeps its identity, its kind, its parent and its children in
  their order, but for removed ones, and its text unless the change is in it -/
  kept : ∀ m, t.node? m.id = some m → m.id ∉ removed → ∃ m', t'.node? m.id = some m' ∧
    m.Kin m' ∧ m'.children.map (·.id) = (m.children.map (·.id)).filter (· ∉ removed) ∧
    (owner ∉ m.preorder → m'.text = m.text) ∧
    (owner ∈ m.preorder → m.span.encloses cut = true ∧
      m'.text = Text.splice m.text (cut.start - m.start) (cut.stop - m.start) text)
  /-- texts are slices of the source, before and after -/
  slices : (∀ id m, t.node? id = some m → m.text = Text.slice t.source m.span.start m.span.stop) ∧
    ∀ id m, t'.node? id = some m → m.text = Text.slice t'.source m.span.start m.span.stop

namespace Placed

/-- The run of a node alone. -/
def alone (m : Placed) : Content := .node "" m.id m.kind m.body (.tail "")

@[simp] theorem ids_alone (m : Placed) : m.alone.ids = m.id :: m.body.ids := by
  simp [alone, Content.ids]

theorem preorder_alone (m : Placed) : m.alone.preorder m.start m.parent = m.preorder := by
  simp [alone, Content.preorder, preorder, descendants]

/-- Where identities are distinct, a node and those below it are listed once. -/
theorem nodup_preorder {n : Placed} (hd : (n.id :: n.body.ids).Nodup) : n.preorder.Nodup := by
  refine List.Nodup.of_map (·.id) ?_
  rwa [← n.preorder_alone, Content.ids_preorder, n.ids_alone]

theorem width_alone (m : Placed) : m.alone.width = m.body.width := by
  simp [alone, Content.width]

theorem text_alone (m : Placed) : m.alone.text = m.text := by
  simp [alone, text]

theorem text_alter_alone (m : Placed) (target : NodeId) (f : Content → Content) :
    (m.alone.alter target f).text = (Content.altered target f m).text := by
  rw [alone, Content.alter, Content.altered]
  split <;> simp [Content.alter]

end Placed

namespace Content

variable {c : Content} {start : Nat} {parent : Option NodeId} {target : NodeId}
  {f : Content → Content} {n m p : Placed} {removed : List NodeId} {cut : Span} {text : String}

/-! ### The nodes of a run -/

theorem map_id_siblings (c : Content) (start place : Nat) (parent owner : Option NodeId) :
    (c.siblings start parent).map (·.id) = (c.siblings place owner).map (·.id) := by
  induction c generalizing start place with
  | tail s => rfl
  | node gap id kind body next _ ihn =>
    simp only [siblings, List.map_cons, ihn _ (place + gap.utf8ByteSize + body.width)]

theorem map_id_siblings_alter (c : Content) (start : Nat) (parent : Option NodeId) :
    ((c.alter target f).siblings start parent).map (·.id) =
      (c.siblings start parent).map (·.id) := by
  induction c generalizing start with
  | tail s => rfl
  | node gap id kind body next _ ihn =>
    rw [alter]
    split
    · simp only [siblings, List.map_cons]
      rw [map_id_siblings next _ (start + gap.utf8ByteSize + body.width) parent parent]
    · simp only [siblings, List.map_cons, ihn]
      rw [map_id_siblings next _ (start + gap.utf8ByteSize + body.width) parent parent]

theorem nodup_of_mem (hd : c.ids.Nodup) (hn : n ∈ c.preorder start parent) :
    (n.id :: n.body.ids).Nodup := by
  obtain ⟨before, after, split, -, -⟩ := preorder_split hn
  have all := nodup_preorder hd start parent
  rw [split, List.map_append, List.map_append, Placed.ids_preorder] at all
  exact (List.nodup_append.1 (List.nodup_append.1 all).1).2.1

theorem mem_preorder_of_id_mem_ids (hd : c.ids.Nodup) (hn : n ∈ c.preorder start parent)
    (hp : p ∈ c.preorder start parent) (h : n.id ∈ p.body.ids) : n ∈ p.descendants := by
  obtain ⟨m, hm, same⟩ := exists_mem_preorder h p.start (some p.id)
  rwa [← eq_of_id_eq hd (mem_preorder_of_mem_descendants hp hm) hn same]

/-- The changed node stands where it stood. -/
theorem changed_mem_alter (hd : c.ids.Nodup) (hn : n ∈ c.preorder start parent) :
    { n with body := f n.body } ∈ (c.alter n.id f).preorder start parent := by
  induction c generalizing start parent with
  | tail s => simp [preorder] at hn
  | node gap id kind body next ihb ihn =>
    obtain ⟨idb, idn, hb, hx, apart⟩ := nodup_node hd
    rcases List.mem_append.1 hn with hn | hn
    · rcases List.mem_cons.1 hn with rfl | hn
      · simp [alter, preorder]
      · have ne : id ≠ n.id := fun e => idb (e ▸ id_mem_ids hn)
        rw [alter, if_neg ne]
        exact List.mem_append_left _ (List.mem_cons_of_mem _ (ihb hb hn))
    · have mem := id_mem_ids hn
      have ne : id ≠ n.id := fun e => idn (e ▸ mem)
      rw [alter, if_neg ne, alter_of_not_mem fun hb => apart _ hb mem]
      exact List.mem_append_right _ (ihn hx hn)

/-! ### The text of a run -/

/-- A run that holds a changed node is spliced as the node is. -/
theorem text_alter_eq_splice (hd : c.ids.Nodup) (hp : p ∈ c.preorder start parent)
    (change : p.Change (f p.body) removed cut text) :
    start ≤ cut.start ∧ cut.start ≤ cut.stop ∧ cut.stop ≤ start + c.width ∧
      (c.alter p.id f).text = Text.splice c.text (cut.start - start) (cut.stop - start) text := by
  obtain ⟨before, after, whole, place, alters⟩ := alter_text hd hp
  obtain ⟨head, mid, rest, inner, changed, first, last⟩ := change.splits
  have whole : c.text = (before ++ head) ++ mid ++ (rest ++ after) := by
    rw [whole, inner]; simp only [String.append_assoc]
  have first : cut.start - start = (before ++ head).utf8ByteSize := by
    rw [first, place, String.utf8ByteSize_append]; omega
  have last : cut.stop - start = (before ++ head).utf8ByteSize + mid.utf8ByteSize := by
    rw [last, ← first]; omega
  refine ⟨by omega, by omega, ?_, ?_⟩
  · rw [width_eq, whole]
    simp only [String.utf8ByteSize_append] at *
    omega
  · rw [alters f, changed, first, last, whole, Text.splice_append]
    simp only [String.append_assoc]

end Content

namespace Tree

variable {t : Tree} {f : Content → Content} {p : Placed} {removed : List NodeId} {cut : Span}
  {text : String}

/-- The children of a node that is neither changed nor removed are not removed. -/
theorem Numbered.child_not_removed (h : t.Numbered) {body : Content}
    (change : p.Change body removed cut text) (hp : p ∈ t.nodes) {m n : Placed} (hm : m ∈ t.nodes)
    (ne : m ≠ p) (keep : m.id ∉ removed) (hn : n ∈ m.children) : n.id ∉ removed := by
  intro gone
  have hnt := mem_nodes_of_mem_children hm hn
  -- a removed child stands below `p`, so its parent `m` does, and is kept with its content
  have below := Content.mem_preorder_of_id_mem_ids h.nodup hnt hp (change.below _ gone)
  have inside : m ∈ p.descendants := by
    rcases Content.mem_siblings_or_mem_children below with child | ⟨q, hq, child⟩
    · exact absurd (h.eq_of_mem_children hm hp hn child) ne
    · have hqt := Content.mem_preorder_of_mem_descendants hp hq
      rwa [h.eq_of_mem_children hm hqt hn child]
  obtain ⟨m', hm', -, same⟩ := change.kept m inside keep p.start
  have still : n.id ∈ body.ids :=
    Content.ids_subset_of_mem hm' (same ▸ Content.id_mem_ids
      (Content.mem_preorder_of_mem_siblings hn))
  exact ((change.ids _).1 still).2 gone

/-- A node that is changed or holds a changed one is spliced. -/
theorem Numbered.text_altered_eq_splice (h : t.Numbered)
    (change : p.Change (f p.body) removed cut text) {m : Placed} (hm : m ∈ t.nodes)
    (inside : p ∈ m.preorder) :
    m.start ≤ cut.start ∧ cut.start ≤ cut.stop ∧ cut.stop ≤ m.start + m.body.width ∧
      (Content.altered p.id f m).text =
        Text.splice m.text (cut.start - m.start) (cut.stop - m.start) text := by
  have nodup : m.alone.ids.Nodup := by simpa using Content.nodup_of_mem h.nodup hm
  have spliced := Content.text_alter_eq_splice nodup (m.preorder_alone ▸ inside) change
  rwa [m.width_alone, m.text_alone, m.text_alter_alone] at spliced

/-- The children that a node has left, in their order. -/
theorem Numbered.children_altered (h : t.Numbered)
    (change : p.Change (f p.body) removed cut text) (hp : p ∈ t.nodes) {m m' : Placed}
    (hm : m ∈ t.nodes) (keep : m.id ∉ removed) (body : m'.body = Content.altered p.id f m) :
    m'.children.map (·.id) = (m.children.map (·.id)).filter (· ∉ removed) := by
  rw [Placed.children, body, Content.altered]
  split
  · rename_i e
    obtain rfl := h.eq_of_id_eq hm hp e
    exact change.children _ _
  · rename_i ne
    have all : ∀ id ∈ m.children.map (·.id), id ∉ removed := by
      intro id hid
      obtain ⟨n, hn, rfl⟩ := List.mem_map.1 hid
      exact h.child_not_removed change hp hm (fun e => ne (e ▸ rfl)) keep hn
    rw [List.filter_eq_self.2 (by simpa using all), Content.map_id_siblings_alter]
    exact Content.map_id_siblings _ _ _ _ _

/-- **A change of one node is a splice of the tree.** -/
theorem Numbered.spliced (h : t.Numbered) (hf : ∀ c, (f c).ids.Sublist c.ids) (hp : p ∈ t.nodes)
    (change : p.Change (f p.body) removed cut text) :
    t.Spliced (t.alter p.id f) p removed cut text := by
  have h' : (t.alter p.id f).Numbered := h.alter hf p.id
  constructor
  case source =>
    rw [source, content_alter]
    exact (Content.text_alter_eq_splice h.nodup hp change).2.2.2
  case alive =>
    intro id
    rw [isSome_node?_iff, isSome_node?_iff, content_alter, Content.mem_ids_alter h.nodup hp,
      change.ids]
    constructor
    · rintro (⟨hid, outside⟩ | ⟨inside, keep⟩)
      · exact ⟨hid, fun gone => outside (change.below id gone)⟩
      · exact ⟨Content.ids_subset_of_mem hp inside, keep⟩
    · rintro ⟨hid, keep⟩
      by_cases inside : id ∈ p.body.ids
      · exact .inr ⟨inside, keep⟩
      · exact .inl ⟨hid, inside⟩
  case root =>
    rw [Tree.alter]
    split <;> rfl
  case slices =>
    refine ⟨fun id m found => ?_, fun id m found => ?_⟩
    · exact h.text_eq_slice (h.node?_eq_some_iff.1 found).1
    · exact h'.text_eq_slice (h'.node?_eq_some_iff.1 found).1
  case kept =>
    intro m found keep
    have hm := (h.node?_eq_some_iff.1 found).1
    obtain ⟨m', hm', kin, body⟩ := Content.exists_mem_alter h.nodup (· ∉ removed)
      (fun n hn e => by rw [h.eq_of_id_eq hn hp e]; exact change.kept) hm keep 0
    rw [← content_alter] at hm'
    refine ⟨m', h'.node?_eq_some_iff.2 ⟨hm', kin.id⟩, kin,
      h.children_altered change hp hm keep body, fun apart => ?_, fun inside => ?_⟩
    · have ne : m.id ≠ p.id := fun e => apart (h.eq_of_id_eq hm hp e ▸ List.mem_cons_self)
      have outside : p.id ∉ m.body.ids := fun hid =>
        apart (List.mem_cons_of_mem _ (Content.mem_preorder_of_id_mem_ids h.nodup hp hm hid))
      rw [Placed.text, body, Content.altered_of_not_mem ne outside]
      rfl
    · obtain ⟨first, order, last, spliced⟩ := h.text_altered_eq_splice change hm inside
      refine ⟨?_, by rw [Placed.text, body, spliced]⟩
      simp [Span.encloses, Placed.span, first, last]

end Tree

/-! ### The two edits -/

namespace Placed

variable {p a b : Placed} {i j : Nat}

/-- The identities of the children of a node from the `i`-th to the `j`-th and below them. -/
def subtrees (p : Placed) (i j : Nat) : List NodeId :=
  (((p.children.drop i).take (j + 1 - i)).flatMap preorder).map (·.id)

/-- The text of a leaf is replaced. -/
theorem change_of_isLeaf (leaf : p.isLeaf = true) (text : String) :
    p.Change (.tail text) [] p.span text := by
  obtain ⟨s, body⟩ : ∃ s, p.body = .tail s := by
    cases e : p.body with
    | tail s => exact ⟨s, rfl⟩
    | node gap id kind body next => simp [isLeaf, e, Content.isLeaf] at leaf
  constructor
  case splits =>
    exact ⟨"", s, "", by simp [Placed.text, body], by simp, by simp [span],
      by simp [span, body, Content.width]⟩
  case below => simp
  case ids => simp [body, Content.ids]
  case kept => simp [descendants, body, Content.preorder]
  case children => simp [children, body, Content.siblings]

theorem id_mem_map_flatMap_preorder {ns : List Placed} {n : Placed} (h : n ∈ ns) :
    n.id ∈ (ns.flatMap preorder).map (·.id) :=
  List.mem_map_of_mem (List.mem_flatMap.2 ⟨n, h, List.mem_cons_self⟩)

section Cutting

variable {before mid : String} {c' rest : Content}

/-- The identities of a run that is cut: those of what stays before, of what goes and of what
follows. -/
theorem ids_cutting (h : p.body.Cutting c' p.start (some p.id) i j a b before mid rest) :
    p.body.ids = ((p.children.take i).flatMap preorder).map (·.id) ++ p.subtrees i j ++ rest.ids ∧
    c'.ids = ((p.children.take i).flatMap preorder).map (·.id) ++ rest.ids := by
  constructor
  · rw [← Content.ids_preorder p.body p.start (some p.id), h.nodes, List.map_append,
      List.map_append, Content.ids_preorder]
    rfl
  · rw [← Content.ids_preorder c' p.start (some p.id), h.nodes', List.map_append,
      Content.ids_preorder]
    rfl

/-- What stays before and what follows does not go. -/
theorem not_mem_subtrees (hd : p.body.ids.Nodup)
    (h : p.body.Cutting c' p.start (some p.id) i j a b before mid rest) :
    (∀ id ∈ ((p.children.take i).flatMap preorder).map (·.id), id ∉ p.subtrees i j) ∧
    ∀ id ∈ rest.ids, id ∉ p.subtrees i j := by
  rw [(ids_cutting h).1] at hd
  obtain ⟨hd, -, apartRest⟩ := List.nodup_append.1 hd
  obtain ⟨-, -, apartHead⟩ := List.nodup_append.1 hd
  exact ⟨fun id hid gone => apartHead id hid id gone rfl,
    fun id hid gone => apartRest id (List.mem_append_right _ gone) id hid rfl⟩

theorem mem_ids_cutting (hd : p.body.ids.Nodup)
    (h : p.body.Cutting c' p.start (some p.id) i j a b before mid rest) (id : NodeId) :
    id ∈ c'.ids ↔ id ∈ p.body.ids ∧ id ∉ p.subtrees i j := by
  obtain ⟨ids, ids'⟩ := ids_cutting h
  obtain ⟨notHead, notRest⟩ := not_mem_subtrees hd h
  rw [ids, ids']
  simp only [List.mem_append]
  constructor
  · rintro (hid | hid)
    · exact ⟨.inl (.inl hid), notHead id hid⟩
    · exact ⟨.inr hid, notRest id hid⟩
  · rintro ⟨(hid | hid) | hid, keep⟩
    · exact .inl hid
    · exact absurd hid keep
    · exact .inr hid

/-- A node that does not go stands in the run that is left, with the same content. -/
theorem kept_cutting (h : p.body.Cutting c' p.start (some p.id) i j a b before mid rest)
    {m : Placed} (hm : m ∈ p.descendants) (keep : m.id ∉ p.subtrees i j) (place : Nat) :
    ∃ m' ∈ c'.preorder place (some p.id), m.Kin m' ∧ m'.body = m.body := by
  rw [descendants, h.nodes] at hm
  rcases List.mem_append.1 hm with hm | hm
  · rcases List.mem_append.1 hm with hm | hm
    · exact Content.exists_mem_moved (h.nodes' ▸ List.mem_append_left _ hm) place
    · exact absurd (List.mem_map_of_mem hm) keep
  · -- what follows moves twice: to the start of `a`, and with the whole run to `place`
    obtain ⟨m', hm', kin, same⟩ := Content.exists_mem_moved hm a.start
    obtain ⟨m'', hm'', kin', same'⟩ :=
      Content.exists_mem_moved (h.nodes' ▸ List.mem_append_right _ hm') place
    exact ⟨m'', hm'', kin.trans kin', same'.trans same⟩

/-- The siblings that are left are those that do not go. -/
theorem siblings_cutting (hd : p.body.ids.Nodup)
    (h : p.body.Cutting c' p.start (some p.id) i j a b before mid rest) (start : Nat)
    (parent : Option NodeId) : (c'.siblings start parent).map (·.id) =
      (p.children.map (·.id)).filter (· ∉ p.subtrees i j) := by
  obtain ⟨notHead, notRest⟩ := not_mem_subtrees hd h
  have head : ((p.children.take i).map (·.id)).filter (· ∉ p.subtrees i j) =
      (p.children.take i).map (·.id) := by
    refine List.filter_eq_self.2 fun id hid => ?_
    obtain ⟨n, hn, rfl⟩ := List.mem_map.1 hid
    simpa using notHead n.id (id_mem_map_flatMap_preorder hn)
  have gone : (((p.children.drop i).take (j + 1 - i)).map (·.id)).filter
      (· ∉ p.subtrees i j) = [] := by
    refine List.filter_eq_nil_iff.2 fun id hid => ?_
    obtain ⟨n, hn, rfl⟩ := List.mem_map.1 hid
    have mem : n.id ∈ p.subtrees i j := id_mem_map_flatMap_preorder hn
    simpa using mem
  have others : ((rest.siblings b.span.stop (some p.id)).map (·.id)).filter
      (· ∉ p.subtrees i j) = (rest.siblings b.span.stop (some p.id)).map (·.id) := by
    refine List.filter_eq_self.2 fun id hid => ?_
    obtain ⟨n, hn, rfl⟩ := List.mem_map.1 hid
    simpa using notRest n.id (Content.id_mem_ids (Content.mem_preorder_of_mem_siblings hn))
  have all : p.children.map (·.id) = (p.children.take i).map (·.id) ++
      ((p.children.drop i).take (j + 1 - i)).map (·.id) ++
      (rest.siblings b.span.stop (some p.id)).map (·.id) := by
    conv => lhs; rw [children, h.siblings]
    simp only [List.map_append]
    rfl
  rw [all, List.filter_append, List.filter_append, head, gone, others, List.append_nil,
    Content.map_id_siblings _ start p.start parent (some p.id), h.siblings', List.map_append,
    Content.map_id_siblings rest a.start b.span.stop (some p.id) (some p.id)]
  rfl

end Cutting

/-- The children from one to another are removed. -/
theorem change_cut (hd : p.body.ids.Nodup) (hij : i ≤ j) (ha : p.children[i]? = some a)
    (hb : p.children[j]? = some b) :
    p.Change (p.body.cut a.id b.id) (p.subtrees i j) ⟨a.start, b.span.stop⟩ "" := by
  obtain ⟨before, mid, rest, h⟩ := Content.cut_spec hd hij ha hb
  constructor
  case splits => exact ⟨before, mid, rest.text, h.text, by simpa using h.text', h.first, h.last⟩
  case below =>
    intro id hid
    rw [(ids_cutting h).1]
    exact List.mem_append_left _ (List.mem_append_right _ hid)
  case ids => exact mem_ids_cutting hd h
  case kept => exact fun m hm keep place => kept_cutting h hm keep place
  case children => exact siblings_cutting hd h

end Placed

namespace Tree

variable {t t' : Tree} {s : Span}

/-- Replacing the text of a leaf is a splice of what the leaf covers. -/
theorem Numbered.spliced_replaceText (h : t.Numbered) {id : NodeId} {text : String}
    (done : t.replaceText id text = .ok (t', s)) :
    ∃ n n', t.node? id = some n ∧ t.Spliced t' n [] n.span text ∧
      t'.node? id = some n' ∧ n'.text = text ∧ s = n'.span := by
  obtain ⟨n, found, leaf, -, rfl, rfl⟩ := replaceText_eq_ok_iff.1 done
  obtain ⟨hn, rfl⟩ := h.node?_eq_some_iff.1 found
  have hf : ∀ c : Content, (Content.tail text).ids.Sublist c.ids := fun c => List.nil_sublist _
  have here := Content.changed_mem_alter (f := fun _ => .tail text) h.nodup hn
  rw [← content_alter] at here
  have spliced := h.spliced hf hn (Placed.change_of_isLeaf leaf text)
  have found' := (h.alter hf n.id).node?_eq_some_iff.2 ⟨here, rfl⟩
  exact ⟨n, { n with body := .tail text }, found, spliced, found', Content.text_tail text, rfl⟩

/-- The child at the place found is the node found. -/
theorem Numbered.getElem?_of_findIdx? (h : t.Numbered) {p n : Placed} {id : NodeId} {k : Nat}
    (hp : p ∈ t.nodes) (found : t.node? id = some n)
    (place : p.children.findIdx? (·.id == id) = some k) :
    p.children[k]? = some n ∧ n.id = id := by
  obtain ⟨hn, rfl⟩ := h.node?_eq_some_iff.1 found
  obtain ⟨hlt, same, -⟩ := List.findIdx?_eq_some_iff_getElem.1 place
  have hm := mem_nodes_of_mem_children hp (List.getElem_mem hlt)
  rw [List.getElem?_eq_getElem hlt, h.eq_of_id_eq hm hn (by simpa using same)]
  exact ⟨rfl, rfl⟩

/-- Removing children is a splice of what they cover. -/
theorem Numbered.spliced_removeRange (h : t.Numbered) {parent first last : NodeId}
    (done : t.removeRange parent first last = .ok (t', s)) :
    ∃ p a b i j, t.node? parent = some p ∧ i ≤ j ∧
      p.children[i]? = some a ∧ a.id = first ∧ p.children[j]? = some b ∧ b.id = last ∧
      s = ⟨a.span.start, b.span.stop⟩ ∧ t.Spliced t' p (p.subtrees i j) s "" := by
  obtain ⟨p, a, b, i, j, hp, ha, hb, hi, hj, order, rfl, rfl⟩ := removeRange_eq_ok_iff.1 done
  obtain ⟨hpt, rfl⟩ := h.node?_eq_some_iff.1 hp
  obtain ⟨hai, rfl⟩ := h.getElem?_of_findIdx? hpt ha hi
  obtain ⟨hbj, rfl⟩ := h.getElem?_of_findIdx? hpt hb hj
  have hd := (List.nodup_cons.1 (Content.nodup_of_mem h.nodup hpt)).2
  exact ⟨p, a, b, i, j, hp, order, hai, rfl, hbj, rfl, rfl,
    h.spliced (Content.ids_cut_sublist a.id b.id) hpt (Placed.change_cut hd order hai hbj)⟩

end Tree

end SyntaxLint
