import SyntaxLint.Proofs.Tree.Slots

/-!
# Proofs — Trees — edits in place

An arena holds a tree when its slots say of the live nodes what the tree says.  After the first
writes of an edit the slots are those of the new tree below the node that is changed and those of
the old tree elsewhere; each sweep brings what is below the next node up, and the last is that of
the root.

* `Arena.Holds`: an arena that holds a tree.
* `Arena.Due.sweep`, `Arena.Through.due`: one node, and the node above it.
* `Arena.Due.climb`: all nodes above a change.
-/

namespace SyntaxLint

/-- The node once the content of the node `target` is changed by `f`. -/
def Placed.changed (target : NodeId) (f : Content → Content) (n : Placed) : Placed :=
  { n with body := Content.altered target f n }

/-- The arena says of the live nodes of a tree what the tree says, and that no others are live. -/
structure Arena.Holds (a : Arena) (t : Tree) : Prop where
  source : a.source = t.source
  slots : ∀ n ∈ t.nodes, a.slot? n.id = some n.slot
  dead : ∀ id s, a.slot? id = some s → s.alive = true → id ∈ t.content.ids

/-- A change of one node by which the text of the node grows or shrinks by `delta`. -/
structure Tree.Resizes (t : Tree) (target : NodeId) (f : Content → Content) (delta : Int) :
    Prop where
  numbered : t.Numbered
  drops : ∀ c, (f c).ids.Sublist c.ids
  width : ∀ n ∈ t.nodes, n.id = target → ((f n.body).width : Int) = n.body.width + delta

variable {t : Tree} {target : NodeId} {f : Content → Content} {delta : Int} {a : Arena}
  {n m o q : Placed} {k : Nat} {before behind : List Placed}

/-! ### What becomes of siblings -/

namespace Content

variable {c : Content} {start : Nat} {parent : Option NodeId}

/-- What is behind a sibling begins after it ends. -/
theorem stop_le_start (split : c.siblings start parent = before ++ o :: behind)
    (hm : m ∈ behind.flatMap Placed.preorder) : o.span.stop ≤ m.start := by
  induction c generalizing start before with
  | tail s => simp [siblings] at split
  | node gap id kind body next _ ihn =>
    cases before with
    | nil =>
      obtain ⟨rfl, rfl⟩ := List.cons.inj split
      rw [← preorder_eq_flatMap_siblings] at hm
      exact (within hm).1
    | cons x before => exact ihn (List.cons.inj split).2

/-- Where a change is below or at one sibling, those before it stay and those behind it move. -/
theorem siblings_alter (hd : c.ids.Nodup) (split : c.siblings start parent = before ++ o :: behind)
    (inside : target ∈ o.id :: o.body.ids)
    (width : ((o.changed target f).body.width : Int) = o.body.width + delta) :
    (c.alter target f).siblings start parent =
      before ++ o.changed target f :: behind.map (Placed.shift delta) := by
  induction c generalizing start before with
  | tail s => simp [siblings] at split
  | node gap id kind body next _ ihn =>
    obtain ⟨idb, idn, hb, hx, apart⟩ := nodup_node hd
    cases before with
    | nil =>
      obtain ⟨rfl, rfl⟩ := List.cons.inj split
      have width : ((altered target f
          ⟨⟨id, kind, body⟩, start + gap.utf8ByteSize, parent⟩).width : Int) =
            body.width + delta := width
      have same : (node gap id kind body next).alter target f = node gap id kind
          (altered target f ⟨⟨id, kind, body⟩, start + gap.utf8ByteSize, parent⟩) next := by
        rw [alter, altered]
        split
        · rfl
        · rename_i ne
          have mem : target ∈ body.ids := (List.mem_cons.1 inside).resolve_left (Ne.symm ne)
          rw [alter_of_not_mem (apart _ mem)]
      have moved : next.siblings (start + gap.utf8ByteSize +
          (altered target f ⟨⟨id, kind, body⟩, start + gap.utf8ByteSize, parent⟩).width) parent =
            (next.siblings (start + gap.utf8ByteSize + body.width) parent).map
              (Placed.shift delta) := by
        refine siblings_shift ?_ parent
        rw [Int.natCast_add, width]
        omega
      rw [same, siblings, moved]
      rfl
    | cons x before =>
      obtain ⟨rfl, rest⟩ := List.cons.inj split
      have mem : target ∈ next.ids := by
        have there : o ∈ next.preorder (start + gap.utf8ByteSize + body.width) parent :=
          mem_preorder_of_mem_siblings (by simp [rest])
        rcases List.mem_cons.1 inside with rfl | below
        · exact id_mem_ids there
        · exact ids_subset_of_mem there below
      have ne : id ≠ target := fun e => idn (e ▸ mem)
      rw [alter, if_neg ne, alter_of_not_mem fun h => apart _ h mem, siblings, ihn hx rest]
      rfl

end Content

/-- A node that holds the change grows or shrinks as the changed node does. -/
theorem Tree.Resizes.width_changed (h : t.Resizes target f delta) (hn : n ∈ t.nodes)
    (inside : target ∈ n.id :: n.body.ids) :
    ((n.changed target f).body.width : Int) = n.body.width + delta := by
  have nodup : n.alone.ids.Nodup := by simpa using Content.nodup_of_mem h.numbered.nodup hn
  rw [← n.ids_alone] at inside
  obtain ⟨x, hx, rfl⟩ := Content.exists_mem_preorder inside n.start n.parent
  have mem : x ∈ t.nodes := by
    rw [n.preorder_alone] at hx
    rcases List.mem_cons.1 hx with rfl | hx
    · exact hn
    · exact Content.mem_preorder_of_mem_descendants hn hx
  have grows := h.width x mem rfl
  have same : (n.alone.alter x.id f).width = (n.changed x.id f).body.width := by
    rw [Content.width_eq, n.text_alter_alone, Placed.changed, Content.width_eq]
  have both := Content.width_alter nodup hx f
  rw [same, n.width_alone] at both
  omega

/-- The slot of a node that holds the change: its list of children is new, and it grows or
shrinks. -/
theorem Tree.Resizes.stretch_slot (h : t.Resizes target f delta) (hn : n ∈ t.nodes)
    (inside : target ∈ n.id :: n.body.ids) :
    Slot.stretch delta { n.slot with children := (n.changed target f).children.map (·.id) } =
      (n.changed target f).slot := by
  have width := h.width_changed hn inside
  have stop : shifted (n.start + n.body.width) delta =
      n.start + (n.changed target f).body.width := shifted_eq (by push_cast; omega)
  rw [Placed.slot, Placed.slot, Slot.stretch]
  simp only [Placed.span, stop]
  rfl

/-- The children of a node above the change. -/
theorem Tree.Resizes.children_changed (h : t.Resizes target f delta) (hq : q ∈ t.nodes)
    (split : q.children = before ++ o :: behind) (inside : target ∈ o.id :: o.body.ids) :
    (q.changed target f).children =
      before ++ o.changed target f :: behind.map (Placed.shift delta) := by
  obtain ⟨out, hd⟩ := List.nodup_cons.1 (Content.nodup_of_mem h.numbered.nodup hq)
  have child : o ∈ q.children := by simp [split]
  have there := Content.mem_preorder_of_mem_siblings child
  have ne : q.id ≠ target := by
    rintro rfl
    rcases List.mem_cons.1 inside with e | below
    · exact out (e ▸ Content.id_mem_ids there)
    · exact out (Content.ids_subset_of_mem there below)
  have width := h.width_changed (Tree.mem_nodes_of_mem_children hq child) inside
  have same : (q.changed target f).body = q.body.alter target f := if_neg ne
  rw [Placed.children, same]
  exact Content.siblings_alter hd split inside width

namespace Placed

/-- A change drops identities, at most. -/
theorem ids_changed (hf : ∀ c, (f c).ids.Sublist c.ids) (target : NodeId) (n : Placed) :
    (n.changed target f).body.ids.Sublist n.body.ids := by
  rw [changed, Content.altered]
  split
  · exact hf n.body
  · exact Content.ids_alter_sublist hf

/-- What is below a node is what is below its children, and those. -/
theorem ids_eq_flatMap (q : Placed) :
    q.body.ids = (q.children.flatMap preorder).map (·.id) := by
  rw [← Content.ids_preorder q.body q.start (some q.id), Content.preorder_eq_flatMap_siblings]
  rfl

/-- What is below a node is below its first children or below the others. -/
theorem descendants_eq_append (n : Placed) (k : Nat) : n.descendants =
    (n.children.take k).flatMap preorder ++ (n.children.drop k).flatMap preorder := by
  rw [← List.flatMap_append, List.take_append_drop]
  exact Content.preorder_eq_flatMap_siblings _ _ _

/-- Nodes below a node have identities apart from its own and from one another's. -/
theorem nodup_parts {n : Placed} (hd : (n.id :: n.body.ids).Nodup) (k : Nat) :
    (∀ m ∈ n.descendants, n.id ≠ m.id) ∧
      (((n.children.drop k).flatMap preorder).map (·.id)).Nodup ∧
      ∀ m ∈ (n.children.take k).flatMap preorder,
        m.id ∉ ((n.children.drop k).flatMap preorder).map (·.id) := by
  obtain ⟨out, hd⟩ := List.nodup_cons.1 hd
  rw [← Content.ids_preorder n.body n.start (some n.id)] at out hd
  refine ⟨fun m hm e => ?_, ?_⟩
  · have mem : m.id ∈ (n.body.preorder n.start (some n.id)).map (·.id) := List.mem_map_of_mem hm
    rw [← e] at mem
    exact out mem
  rw [show n.body.preorder n.start (some n.id) = n.descendants from rfl,
    n.descendants_eq_append k, List.map_append] at hd
  obtain ⟨-, late, apart⟩ := List.nodup_append.1 hd
  exact ⟨late, fun m hm mem => apart _ (List.mem_map_of_mem hm) _ mem rfl⟩

/-- What is below a node is before one child, at or below that, or behind it. -/
theorem ids_split (split : q.children = before ++ o :: behind) :
    q.body.ids = (before.flatMap preorder).map (·.id) ++ (o.id :: o.body.ids) ++
      (behind.flatMap preorder).map (·.id) := by
  rw [ids_eq_flatMap, split]
  simp

/-- A child is found where it is. -/
theorem findIdx?_children (hd : q.body.ids.Nodup) (split : q.children = before ++ o :: behind) :
    q.children.findIdx? (·.id == o.id) = some before.length := by
  rw [ids_split split] at hd
  obtain ⟨hd, -, -⟩ := List.nodup_append.1 hd
  obtain ⟨-, -, apart⟩ := List.nodup_append.1 hd
  have none : before.findIdx? (·.id == o.id) = none := by
    refine List.findIdx?_eq_none_iff.2 fun m hm => ?_
    simpa using apart m.id (id_mem_map_flatMap_preorder hm) o.id List.mem_cons_self
  rw [split, List.findIdx?_append, none]
  simp [List.findIdx?_cons]

end Placed

/-- Below a node there are fewer nodes than in the tree. -/
theorem Tree.size_lt (hn : n ∈ t.nodes) : n.body.size < t.size := by
  obtain ⟨before, after, split, -, -⟩ := Content.preorder_split hn
  have length := congrArg List.length split
  have below : n.preorder.length = n.body.size + 1 := by
    rw [← List.length_map (f := fun n : Placed => n.id), Placed.ids_preorder, List.length_cons,
      Content.length_ids]
  rw [Tree.size_eq_length_nodes]
  simp only [List.length_append, below] at length
  have : t.nodes.length = (t.content.preorder 0 none).length := rfl
  omega

/-- The root after a change. -/
theorem Tree.top_alter (t : Tree) (target : NodeId) (f : Content → Content) :
    (t.alter target f).top = t.top.changed target f := by
  rw [Tree.alter, Tree.top, Placed.changed, Content.altered]
  split <;> simp_all [Tree.top]

/-! ### Between the writes of an edit -/

namespace Arena

/-- Below a node that holds the change the slots are as after it, elsewhere as before it. -/
structure Through (a : Arena) (t : Tree) (target : NodeId) (f : Content → Content) (n : Placed) :
    Prop where
  inside : ∀ m ∈ (n.changed target f).preorder, a.slot? m.id = some m.slot
  outside : ∀ m ∈ t.nodes, m.id ∉ n.id :: n.body.ids → a.slot? m.id = some m.slot
  dead : ∀ id s, a.slot? id = some s → s.alive = true → id ∈ (t.alter target f).content.ids

/-- The same, but that the node has yet to grow or shrink and its children from a place on have yet
to move. -/
structure Due (a : Arena) (t : Tree) (target : NodeId) (f : Content → Content) (delta : Int)
    (n : Placed) (k : Nat) : Prop where
  here : ∃ s, a.slot? n.id = some s ∧ s.stretch delta = (n.changed target f).slot
  done : ∀ m ∈ ((n.changed target f).children.take k).flatMap Placed.preorder,
    a.slot? m.id = some m.slot
  due : ∀ m ∈ ((n.changed target f).children.drop k).flatMap Placed.preorder,
    ∃ s, a.slot? m.id = some s ∧ s.shift delta = m.slot
  outside : ∀ m ∈ t.nodes, m.id ∉ n.id :: n.body.ids → a.slot? m.id = some m.slot
  dead : ∀ id s, a.slot? id = some s → s.alive = true → id ∈ (t.alter target f).content.ids

/-- **One node**: what has yet to move below it moves. -/
theorem Due.sweep (d : a.Due t target f delta n k) (h : t.Resizes target f delta)
    (hn : n ∈ t.nodes) : (a.sweep delta n.id k).Through t target f n := by
  obtain ⟨s, found, grown⟩ := d.here
  have fewer := n.ids_changed h.drops target
  have distinct : (n.id :: (n.changed target f).body.ids).Nodup :=
    (Content.nodup_of_mem h.numbered.nodup hn).sublist (fewer.cons_cons _)
  obtain ⟨out, late, apart⟩ := Placed.nodup_parts (n := n.changed target f) distinct k
  have parts := (n.changed target f).descendants_eq_append k
  have later : ∀ m ∈ ((n.changed target f).children.drop k).flatMap Placed.preorder,
      m ∈ (n.changed target f).descendants := fun m hm => parts ▸ List.mem_append_right _ hm
  have self : n.id ∉ (((n.changed target f).children.drop k).flatMap Placed.preorder).map
      (·.id) := by
    intro mem
    obtain ⟨m, hm, same⟩ := List.mem_map.1 mem
    exact out m (later m hm) same.symm
  have children : (a.slot n.id).children.drop k =
      ((n.changed target f).children.drop k).map (·.id) := by
    have same : s.children = (n.changed target f).children.map (·.id) :=
      congrArg Slot.children grown
    rw [slot_of_slot? found, same, List.map_drop]
  have swept := slot?_sweep delta children ⟨late, fun m hm => by
    obtain ⟨s, found, moved⟩ := d.due m hm
    exact ⟨s, found, congrArg Slot.children moved⟩⟩ self
  constructor
  case inside =>
    intro m hm
    rw [swept]
    rcases List.mem_cons.1 hm with rfl | hm
    · have here : (n.changed target f).id = n.id := rfl
      rw [here, if_neg self, if_pos rfl, ← grown, found]
      rfl
    · have ne : n.id ≠ m.id := out m hm
      rw [parts] at hm
      rcases List.mem_append.1 hm with early | hm
      · rw [if_neg (apart m early), if_neg ne]
        exact d.done m early
      · obtain ⟨s, found, moved⟩ := d.due m hm
        rw [if_pos (List.mem_map_of_mem hm), found, ← moved]
        rfl
  case outside =>
    intro m hm elsewhere
    have ne : n.id ≠ m.id := fun e => elsewhere (e ▸ List.mem_cons_self)
    have still : m.id ∉
        (((n.changed target f).children.drop k).flatMap Placed.preorder).map (·.id) := by
      intro mem
      obtain ⟨x, hx, same⟩ := List.mem_map.1 mem
      have below := fewer.subset (same ▸ Content.id_mem_ids (later x hx))
      exact elsewhere (List.mem_cons_of_mem _ below)
    rw [swept, if_neg still, if_neg ne]
    exact d.outside m hm elsewhere
  case dead =>
    intro id s' found' alive
    rw [swept] at found'
    split at found'
    · obtain ⟨s, found, rfl⟩ := Option.map_eq_some_iff.1 found'
      exact d.dead id s found alive
    · split at found'
      · obtain ⟨s, found, rfl⟩ := Option.map_eq_some_iff.1 found'
        exact d.dead id s found alive
      · exact d.dead id s' found' alive

/-- **The node above it** is next. -/
theorem Through.due (th : a.Through t target f o) (h : t.Resizes target f delta)
    (hq : q ∈ t.nodes) (split : q.children = before ++ o :: behind)
    (inside : target ∈ o.id :: o.body.ids) :
    a.Due t target f delta q (before.length + 1) := by
  obtain ⟨out, hd⟩ := List.nodup_cons.1 (Content.nodup_of_mem h.numbered.nodup hq)
  have ids := Placed.ids_split split
  have below : o.id :: o.body.ids ⊆ q.body.ids := by
    rw [ids]
    exact fun id hid => List.mem_append_left _ (List.mem_append_right _ hid)
  have mem : ∀ m ∈ q.children.flatMap Placed.preorder, m ∈ t.nodes := by
    rw [Placed.children, ← Content.preorder_eq_flatMap_siblings]
    exact fun m hm => Content.mem_preorder_of_mem_descendants hq hm
  have child : o ∈ t.nodes := Tree.mem_nodes_of_mem_children hq (by simp [split])
  have width := h.width_changed child inside
  have children := h.children_changed hq split inside
  have order : ∀ m ∈ behind.flatMap Placed.preorder, 0 ≤ m.start + delta := by
    intro m hm
    have := Content.stop_le_start split hm
    simp only [Placed.span] at this
    omega
  rw [ids] at hd
  obtain ⟨hd, -, apart⟩ := List.nodup_append.1 hd
  obtain ⟨-, -, apart'⟩ := List.nodup_append.1 hd
  constructor
  case here =>
    refine ⟨q.slot, th.outside q hq fun h => out (below h), ?_⟩
    have names : (q.changed target f).children.map (·.id) = q.slot.children := by
      rw [children, Placed.slot, split]
      simp [Placed.changed]
    rw [← h.stretch_slot hq (List.mem_cons_of_mem _ (below inside)), names]
  case done =>
    intro m hm
    have early : (q.changed target f).children.take (before.length + 1) =
        before ++ [o.changed target f] := by
      rw [children, List.take_length_add_append]
      rfl
    rw [early, List.flatMap_append, List.flatMap_singleton] at hm
    rcases List.mem_append.1 hm with hm | hm
    · refine th.outside m (mem m ?_) fun h => ?_
      · rw [split, List.flatMap_append]
        exact List.mem_append_left _ hm
      · exact apart' _ (List.mem_map_of_mem hm) _ h rfl
    · exact th.inside m hm
  case due =>
    intro m hm
    have late : (q.changed target f).children.drop (before.length + 1) =
        behind.map (Placed.shift delta) := by
      rw [children, List.drop_length_add_append]
      rfl
    rw [late] at hm
    obtain ⟨y, hy, same, moved⟩ := Placed.exists_of_mem_shift order hm
    refine ⟨y.slot, same ▸ th.outside y (mem y ?_) fun h => ?_, moved⟩
    · rw [split, List.flatMap_append, List.flatMap_cons]
      exact List.mem_append_right _ (List.mem_append_right _ hy)
    · exact apart _ (List.mem_append_right _ h) _ (List.mem_map_of_mem hy) rfl
  case outside =>
    exact fun m hm elsewhere => th.outside m hm fun h =>
      elsewhere (List.mem_cons_of_mem _ (below h))
  case dead => exact th.dead

/-! ### All nodes above a change -/

theorem idxOf?_children (q : Placed) (id : NodeId) :
    q.slot.children.idxOf? id = q.children.findIdx? (·.id == id) := by
  rw [List.idxOf?, Placed.slot, List.findIdx?_map]
  rfl

/-- The place of a child is looked up in the slot of its parent. -/
theorem childIndex_eq (held : a.slot? q.id = some q.slot) (id : NodeId) :
    a.childIndex q.id id = Tree.childIndex q id := by
  rw [childIndex, slot_of_slot? held, Tree.childIndex]
  rw [idxOf?_children]
  rfl

/-- **All nodes above a change**, one after the other, up to the root. -/
theorem Due.climb (h : t.Resizes target f delta) {fuel : Nat} (d : a.Due t target f delta q k)
    (hq : q ∈ t.nodes) (inside : target ∈ q.id :: q.body.ids)
    (enough : t.size ≤ fuel + q.body.size) :
    (climb delta fuel a q.id k).Through t target f t.top := by
  -- by induction on the steps, of which there are as many left as nodes outside `q`, at least
  induction fuel generalizing a q k with
  | zero =>
    have := Tree.size_lt hq
    omega
  | succ fuel ih =>
    have through := d.sweep h hq
    have here : (a.sweep delta q.id k).slot? q.id = some (q.changed target f).slot :=
      through.inside _ List.mem_cons_self
    have parent : ((a.sweep delta q.id k).slot q.id).parent = q.parent := by
      rw [slot_of_slot? here]
      rfl
    rw [Arena.climb, parent]
    rcases Tree.eq_top_or_mem_children hq with rfl | ⟨r, hr, child, named⟩
    · exact through
    · obtain ⟨before, behind, split⟩ := List.append_of_mem child
      have below : q.body.size < r.body.size := by
        have : (q.id :: q.body.ids).length ≤ r.body.ids.length := by
          rw [Placed.ids_split split]
          simp only [List.length_append]
          omega
        rw [List.length_cons, Content.length_ids, Content.length_ids] at this
        omega
      have nodup := Content.nodup_of_mem h.numbered.nodup hr
      obtain ⟨out, hd⟩ := List.nodup_cons.1 nodup
      have sub : q.id :: q.body.ids ⊆ r.body.ids := by
        rw [Placed.ids_split split]
        exact fun id hid => List.mem_append_left _ (List.mem_append_right _ hid)
      have held := through.outside r hr fun h => out (sub h)
      have found : ((a.sweep delta q.id k).slot r.id).children.idxOf? q.id =
          some before.length := by
        rw [slot_of_slot? held, idxOf?_children]
        exact Placed.findIdx?_children hd split
      rw [named]
      simp only [found, Option.elim_some]
      exact ih (through.due h hr split inside) hr (List.mem_cons_of_mem _ (sub inside)) (by omega)

/-- **What follows an edit moves**, and then the arena holds the tree after the edit. -/
theorem Due.shiftFollowing (h : t.Resizes target f delta) (d : a.Due t target f delta q k)
    (hq : q ∈ t.nodes) (inside : target ∈ q.id :: q.body.ids) (many : t.size ≤ a.slots.size) :
    (a.shiftFollowing q.id k delta).Through t target f t.top := by
  rw [shiftFollowing_eq]
  exact d.climb h hq inside (by omega)

theorem Through.holds (th : a.Through t target f t.top)
    (source : a.source = (t.alter target f).source) : a.Holds (t.alter target f) := by
  refine ⟨source, fun n hn => ?_, th.dead⟩
  rw [Tree.nodes_eq, Tree.top_alter] at hn
  exact th.inside n hn

end Arena

end SyntaxLint
