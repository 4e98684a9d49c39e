import SyntaxLint.Proofs.Tree.Iteration
import SyntaxLint.Proofs.Tree.Listing
import SyntaxLint.Proofs.Tree.Ranges
import SyntaxLint.Proofs.Tree.Spliced

/-!
# Proofs — Trees — how trees hang together

In every tree there is the ranges pass their check, the live nodes are those reached from the root,
and each but the root is a child of the node it names as its parent, and of no other.  So it is in
the slots that hold a tree, whatever edits went before: of the dead ones none is reached, though
they keep their links.  An edit of a tree, once made, replaces a stretch of the source, and the
slots tell the text of every node as before.

* `Tree.Coherent`, `Arena.Coherent`: how a tree hangs together, and how slots do.
* `Arena.Holds.coherent`: the slots that hold a tree.
* `Tree.coherent_of_reachable`: the trees there are.
* `Arena.Tells`: the live slots are those of the nodes of a tree, with their texts.
* `Tree.spliced_of_reachable`: an edit of one of these replaces a stretch of its source.
-/

namespace SyntaxLint

variable {t u : Tree} {a : Arena} {id : NodeId}

/-! ### Trees -/

namespace Tree

/-- How a tree hangs together. -/
structure Coherent (t : Tree) : Prop where
  /-- the ranges pass their check -/
  ranges : t.validate = .ok ()
  /-- the live nodes are those reached from the root -/
  found : ∀ id n, t.node? id = some n ↔ t.Reached n ∧ n.id = id
  /-- the root was built last, so no identity is higher -/
  bounded : ∀ id, (t.node? id).isSome → id ≤ t.root.id
  listed : ∀ n, n ∈ t.top.preorder ↔ t.Reached n
  /-- the root and the children of nodes are as many as there are -/
  once : ((t.top :: t.top.preorder.flatMap Placed.children).map (·.id)).Nodup
  root : t.top.parent = none ∧ ∀ p, t.Reached p → t.top ∉ p.children
  /-- every other node is a child of the node it names as its parent, and of no other -/
  owner : ∀ n, t.Reached n → n ≠ t.top → ∃ p, t.Reached p ∧ n.parent = some p.id ∧
    ∀ q, t.Reached q → (n ∈ q.children ↔ q = p)
  /-- as many identities are alive as pre-order lists nodes -/
  count : ((List.range (t.root.id + 1)).filter fun id => (t.node? id).isSome).length = t.size ∧
    t.size = t.top.preorder.length

/-- The parent of a node that is not the root. -/
theorem Numbered.exists_owner (h : t.Numbered) {n : Placed} (hn : t.Reached n) (ne : n ≠ t.top) :
    ∃ p, t.Reached p ∧ n.parent = some p.id ∧
      ∀ q, t.Reached q → (n ∈ q.children ↔ q = p) := by
  rcases eq_top_or_mem_children (mem_nodes_iff_reached.2 hn) with rfl | ⟨p, hp, child, named⟩
  · exact absurd rfl ne
  · refine ⟨p, mem_nodes_iff_reached.1 hp, named, fun q hq => ⟨fun hc => ?_, ?_⟩⟩
    · exact h.eq_of_mem_children (mem_nodes_iff_reached.2 hq) hp hc child
    · rintro rfl
      exact child

/-- No node has the root as a child. -/
theorem top_not_mem_children (p : Placed) : t.top ∉ p.children := by
  intro child
  have named : t.top.parent = some p.id := Content.parent_of_mem_siblings child
  simp [top] at named

/-- No two children of a node are the same. -/
theorem Numbered.nodup_children (h : t.Numbered) {n : Placed} (hn : n ∈ t.nodes) :
    (n.children.map (·.id)).Nodup :=
  (Content.nodup_preorder (List.nodup_cons.1 (Content.nodup_of_mem h.nodup hn)).2 _ _).sublist
    ((Content.siblings_sublist_preorder n.body n.start (some n.id)).map _)

/-- A child is told by its identity. -/
theorem Numbered.id_mem_children_iff (h : t.Numbered) {n p : Placed} (hn : n ∈ t.nodes)
    (hp : p ∈ t.nodes) : n.id ∈ p.children.map (·.id) ↔ n ∈ p.children := by
  refine ⟨fun mem => ?_, List.mem_map_of_mem⟩
  obtain ⟨m, hm, same⟩ := List.mem_map.1 mem
  rwa [← h.eq_of_id_eq (mem_nodes_of_mem_children hp hm) hn same]

theorem Numbered.coherent (h : t.Numbered) : t.Coherent := by
  constructor
  case ranges => exact validate_eq_ok t
  case found =>
    intro id n
    rw [h.node?_eq_some_iff, mem_nodes_iff_reached]
  case bounded => exact fun id alive => h.id_le (isSome_node?_iff.1 alive)
  case listed =>
    intro n
    rw [← nodes_eq, mem_nodes_iff_reached]
  case once =>
    rw [← nodes_eq]
    exact ((nodes_perm t).map (·.id)).nodup_iff.1 h.nodup_nodes
  case root => exact ⟨rfl, fun p _ => top_not_mem_children p⟩
  case owner => exact fun n => h.exists_owner
  case count =>
    rw [← nodes_eq]
    exact ⟨h.length_alive, size_eq_length_nodes t⟩

end Tree

/-! ### Slots -/

namespace Arena

/-- How the slots of a tree with a root hang together. -/
structure Coherent (a : Arena) (root : NodeId) : Prop where
  /-- the slots pass their check -/
  valid : a.validate root = .ok ()
  /-- the live slots are those reached from the root -/
  reached : ∀ id, (∃ s, a.Live id s) ↔ a.Reaches root id
  /-- pre-order comes to an end with each of them once, and they are as many as are alive -/
  listed : ∃ ids, a.Yields [root] ids ∧ ids.Nodup ∧ (∀ id, id ∈ ids ↔ a.Reaches root id) ∧
    a.nodeCount = ids.length
  /-- no list of children has a node twice -/
  once : ∀ id s, a.Live id s → s.children.Nodup
  /-- no live node lists the root -/
  top : (a.slot root).parent = none ∧ ∀ id s, a.Live id s → root ∉ s.children
  /-- every other live node is listed by the live node it names as its parent, and by no other -/
  owner : ∀ id s, a.Live id s → id ≠ root → ∃ p, s.parent = some p ∧ (∃ x, a.Live p x) ∧
    ∀ q y, a.Live q y → (id ∈ y.children ↔ q = p)

theorem nodeCount_eq (a : Arena) :
    a.nodeCount = ((List.range a.slots.size).filter fun id => (a.slot id).alive).length := by
  have slots : a.slots.toList = (List.range a.slots.size).map a.slot := by
    refine List.ext_getElem (by simp) fun i h _ => ?_
    rw [Array.length_toList] at h
    simp [slot, slot?, h]
  rw [nodeCount, ← Array.countP_toList, slots, List.countP_map, List.countP_eq_length_filter]
  rfl

namespace Holds

variable (held : a.Holds t)
include held

/-- The live slots are those of the nodes. -/
theorem exists_live_iff : (∃ s, a.Live id s) ↔ id ∈ t.nodes.map (·.id) := by
  rw [List.mem_map]
  constructor
  · rintro ⟨s, live⟩
    obtain ⟨n, hn, named, -⟩ := held.exists_of_live live
    exact ⟨n, hn, named⟩
  · rintro ⟨n, hn, rfl⟩
    exact ⟨n.slot, held.slots n hn, rfl⟩

/-- Lists of children lead to the nodes. -/
theorem reaches_iff : a.Reaches t.root.id id ↔ id ∈ t.nodes.map (·.id) := by
  constructor
  · intro h
    induction h with
    | root => exact List.mem_map_of_mem Tree.top_mem_nodes
    | child _ mem ih =>
      obtain ⟨n, hn, rfl⟩ := List.mem_map.1 ih
      rw [held.children_slot hn] at mem
      obtain ⟨m, hm, rfl⟩ := List.mem_map.1 mem
      exact List.mem_map_of_mem (Tree.mem_nodes_of_mem_children hn hm)
  · intro mem
    obtain ⟨n, hn, rfl⟩ := List.mem_map.1 mem
    have reached := Tree.mem_nodes_iff_reached.1 hn
    clear mem hn
    induction reached with
    | top => exact .root
    | @child p m reached hm ih =>
      refine .child ih ?_
      rw [held.children_slot (Tree.mem_nodes_iff_reached.2 reached)]
      exact List.mem_map_of_mem hm

/-- **The slots that hold a tree pass their check.** -/
theorem validate_eq_ok (ht : t.Numbered) : a.validate t.root.id = .ok () := by
  have shows : a.Shows none ((t.content.siblings 0 none).map (·.id)) (t.content.outline 0) :=
    shows_content fun n hn => held.slots n hn
  have enough : (t.content.outline 0).postorder.length ≤ a.slots.size := by
    have size := held.size_le ht
    have perm := (Content.postorder_perm_preorder t.content 0 none).length_eq
    rw [Tree.size_eq_length_nodes] at size
    rw [← Content.map_outline_postorder t.content 0 none, List.length_map, perm]
    exact size
  have walked := checkNodes_eq shows enough []
  have root : a.slot? t.root.id = some t.top.slot := held.slots t.top Tree.top_mem_nodes
  have checked : (t.content.outline 0).check t.source = .ok () := by
    simpa [Tree.source] using t.content.check_outline "" ""
  rw [Tree.siblings_content, held.source, checked] at walked
  rw [validate, root]
  exact walked.trans (by rw [checkNodes]; rfl)

/-- As many slots are alive as there are nodes. -/
theorem nodeCount_eq_length (ht : t.Numbered) : a.nodeCount = t.nodes.length := by
  have same : ∀ id, id ∈ (List.range a.slots.size).filter (fun id => (a.slot id).alive) ↔
      id ∈ t.nodes.map (·.id) := by
    intro id
    rw [← held.exists_live_iff, List.mem_filter, List.mem_range]
    constructor
    · rintro ⟨lt, alive⟩
      exact ⟨a.slot id, by simp [slot, slot?, lt], alive⟩
    · rintro ⟨s, found, alive⟩
      obtain ⟨lt, -⟩ := Array.getElem?_eq_some_iff.1 found
      exact ⟨lt, by rwa [slot_of_slot? found]⟩
  have perm := (List.perm_ext_iff_of_nodup (List.nodup_range.filter _) ht.nodup_nodes).2 same
  rw [nodeCount_eq, perm.length_eq, List.length_map]

/-- **The slots that hold a tree hang together.** -/
theorem coherent (ht : t.Numbered) : a.Coherent t.root.id := by
  have live {id : NodeId} {s : Slot} (h : a.Live id s) := held.exists_of_live h
  constructor
  case valid => exact held.validate_eq_ok ht
  case reached => exact fun id => held.exists_live_iff.trans held.reaches_iff.symm
  case listed =>
    refine ⟨t.nodes.map (·.id), ?_, ht.nodup_nodes, fun id => held.reaches_iff.symm, ?_⟩
    · have yields := ((held.navigates ht Tree.top_mem_nodes).preorder _).2 rfl
      rwa [← Tree.nodes_eq] at yields
    · rw [held.nodeCount_eq_length ht, List.length_map]
  case once =>
    intro id s h
    obtain ⟨n, hn, -, rfl⟩ := live h
    exact ht.nodup_children hn
  case top =>
    have root : a.slot t.root.id = t.top.slot :=
      slot_of_slot? (held.slots t.top Tree.top_mem_nodes)
    refine ⟨by rw [root]; rfl, fun id s h mem => ?_⟩
    obtain ⟨p, hp, -, rfl⟩ := live h
    exact Tree.top_not_mem_children p ((ht.id_mem_children_iff Tree.top_mem_nodes hp).1 mem)
  case owner =>
    intro id s h ne
    obtain ⟨n, hn, rfl, rfl⟩ := live h
    obtain ⟨p, hp, named, unique⟩ := ht.exists_owner (Tree.mem_nodes_iff_reached.1 hn)
      fun e => ne (congrArg (·.id) e)
    rw [← Tree.mem_nodes_iff_reached] at hp
    refine ⟨p.id, named, ⟨p.slot, held.slots p hp, rfl⟩, fun q y hy => ?_⟩
    obtain ⟨q, hq, rfl, rfl⟩ := live hy
    rw [show q.slot.children = q.children.map (·.id) from rfl, ht.id_mem_children_iff hn hq,
      unique q (Tree.mem_nodes_iff_reached.1 hq)]
    exact ⟨fun e => e ▸ rfl, ht.eq_of_id_eq hq hp⟩

end Holds

end Arena

/-! ### The trees there are -/

/-- **Every tree there is hangs together**, and so do the slots that hold it; and every arena there
is, after any edits, holds one. -/
theorem Tree.coherent_of_reachable :
    (∀ t : Tree, t.Reachable → t.Coherent ∧ ∀ a : Arena, a.Holds t → a.Coherent t.root.id) ∧
    ∀ a : Arena, a.Reachable → ∃ t : Tree, t.Reachable ∧ a.Holds t :=
  ⟨fun _ h => ⟨h.numbered.coherent, fun _ held => held.coherent h.numbered⟩,
    fun _ h => h.exists_holds⟩

/-- A tree of an element and a token, the first of which is removed: it stays behind in its slot,
with its link to the token in it. -/
theorem Tree.coherent_of_removed : ∃ t u : Tree,
    Tree.ofEvents 0 [.start .document, .start .element, .token .text "a", .finish,
      .token .text "bc", .finish] = .ok t ∧
    t.tryEdit (.remove 3 1 1) = ⟨.ok ⟨0, 1⟩, u⟩ ∧ u.source = "bc" ∧ u.Coherent ∧
    let a := (t.arena.edit (.remove 3 1 1)).arena
    a.Reachable ∧ a = ⟨"bc", #[⟨.text, ⟨0, 1⟩, some 1, [], false⟩,
      ⟨.element, ⟨0, 1⟩, some 3, [0], false⟩, ⟨.text, ⟨0, 2⟩, some 3, [], true⟩,
      ⟨.document, ⟨0, 2⟩, none, [2], true⟩]⟩ ∧
    a.Coherent 3 ∧ ∃ v : Tree, v.Reachable ∧ a.Holds v := by
  have built : Tree.ofEvents 0 [.start .document, .start .element, .token .text "a", .finish,
      .token .text "bc", .finish] = .ok ⟨0, "", ⟨3, .document, .node "" 1 .element
        (.node "" 0 .text (.tail "a") (.tail "")) (.node "" 2 .text (.tail "bc") (.tail ""))⟩,
        ""⟩ := rfl
  refine ⟨_, _, built, rfl, rfl, ?_⟩
  obtain ⟨trees, arenas⟩ := coherent_of_reachable
  have before : Reachable _ := .built built
  obtain ⟨coherent, slots⟩ := trees _ (before.edit (.remove 3 1 1))
  refine ⟨coherent, ?_⟩
  intro a
  have reachable : a.Reachable := .edit (.new before) (.remove 3 1 1)
  have held := ((Arena.holds_arena before.numbered).edit before.numbered (.remove 3 1 1)).holds
  exact ⟨reachable, by decide +kernel, slots a held, arenas a reachable⟩

/-! ### Edits -/

/-- The live slots are those of the nodes of a tree, and their texts stand where the slots say. -/
def Arena.Tells (a : Arena) (t : Tree) : Prop :=
  ∀ id s, a.Live id s ↔ ∃ n ∈ t.nodes, n.id = id ∧ s = n.slot ∧ a.textAt s.span = n.text

theorem Arena.Holds.tells (held : a.Holds t) (ht : t.Numbered) : a.Tells t := by
  intro id s
  constructor
  · intro live
    obtain ⟨n, hn, named, rfl⟩ := held.exists_of_live live
    exact ⟨n, hn, named, rfl, (held.textAt_span ht hn).symm⟩
  · rintro ⟨n, hn, rfl, rfl, -⟩
    exact ⟨held.slots n hn, rfl⟩

/-- **An edit of any tree there is, once made, is a splice**; and so it is in slots, which tell of
the tree before and after it. -/
theorem Tree.spliced_of_reachable (h : t.Reachable) :
    (∀ id text u s, t.replaceText id text = .ok (u, s) →
      ∃ n n', t.node? id = some n ∧ t.Spliced u n [] n.span text ∧
        u.node? id = some n' ∧ n'.text = text ∧ s = n'.span) ∧
    (∀ parent first last u s, t.removeRange parent first last = .ok (u, s) →
      ∃ p a b i j, t.node? parent = some p ∧ i ≤ j ∧
        p.children[i]? = some a ∧ a.id = first ∧ p.children[j]? = some b ∧ b.id = last ∧
        s = ⟨a.span.start, b.span.stop⟩ ∧ t.Spliced u p (p.subtrees i j) s "") ∧
    ∀ a : Arena, a.Holds t → a.Tells t ∧ ∀ e, (a.edit e).result = (t.tryEdit e).result ∧
      (a.edit e).arena.source = (t.tryEdit e).tree.source ∧
      (a.edit e).arena.Tells (t.tryEdit e).tree := by
  have ht := h.numbered
  refine ⟨fun _ _ _ _ done => ht.spliced_replaceText done,
    fun _ _ _ _ _ done => ht.spliced_removeRange done, fun a held => ⟨held.tells ht, fun e => ?_⟩⟩
  have mirrors := held.edit ht e
  exact ⟨mirrors.result, mirrors.holds.source, mirrors.holds.tells (ht.tryEdit e)⟩

/-- A tree of two tokens, the second of which is replaced and then removed. -/
theorem Tree.spliced_of_replaced_of_removed : ∃ t u v : Tree, ∃ n n' p a b i j,
    Tree.ofEvents 0 [.start .document, .token .text "a", .token .text "bc", .finish] = .ok t ∧
    t.replaceText 1 "é" = .ok (u, ⟨1, 3⟩) ∧
    (t.node? 1 = some n ∧ t.Spliced u n [] n.span "é" ∧
      u.node? 1 = some n' ∧ n'.text = "é" ∧ ⟨1, 3⟩ = n'.span) ∧
    u.removeRange 2 1 1 = .ok (v, ⟨1, 3⟩) ∧
    u.node? 2 = some p ∧ i ≤ j ∧
      p.children[i]? = some a ∧ a.id = 1 ∧ p.children[j]? = some b ∧ b.id = 1 ∧
      (⟨1, 3⟩ : Span) = ⟨a.span.start, b.span.stop⟩ ∧
      u.Spliced v p (p.subtrees i j) ⟨1, 3⟩ "" ∧
    t.arena.Tells t ∧ (t.arena.edit (.replace 1 "é")).arena.Tells u := by
  have built : Tree.ofEvents 0 [.start .document, .token .text "a", .token .text "bc", .finish] =
      .ok ⟨0, "", ⟨2, .document, .node "" 0 .text (.tail "a") (.node "" 1 .text (.tail "bc")
        (.tail ""))⟩, ""⟩ := rfl
  have first : Reachable _ := .built built
  have second : Reachable _ := .edit first (.replace 1 "é")
  obtain ⟨replaces, -, slots⟩ := spliced_of_reachable first
  obtain ⟨n, n', replaced⟩ := replaces 1 "é" _ ⟨1, 3⟩ rfl
  obtain ⟨p, a, b, i, j, found, le, ha, ha', hb, hb', s, removed⟩ :=
    (spliced_of_reachable second).2.1 2 1 1 _ ⟨1, 3⟩ rfl
  obtain ⟨tells, edits⟩ := slots _ (Arena.holds_arena first.numbered)
  exact ⟨_, _, _, n, n', p, a, b, i, j, built, rfl, replaced, rfl, found, le, ha, ha', hb, hb', s,
    removed, tells, (edits (.replace 1 "é")).2.2⟩

end SyntaxLint
