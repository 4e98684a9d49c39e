import SyntaxLint.Proofs.Tree.Held

/-!
# Proofs — Trees — the two edits in place

Replacing the text of a leaf and removing children, write by write.  After the first writes the
arena is as after the edit at the node that is changed; then what follows the edit moves.  So an
edit in place has the result of the edit of the tree and leaves the arena holding the tree after
it; and where it is refused nothing has been written.

* `Arena.Holds.rewrite`, `Arena.Holds.drain`: the first writes.
* `Arena.Holds.childIndex_rewrite`: the lookup that comes after them.
* `Arena.Holds.edit`: an edit in place is the edit of the tree.
-/

namespace SyntaxLint

variable {t : Tree} {a : Arena} {n p x y : Placed} {id : NodeId} {text : String} {i j : Nat}

theorem Placed.children_slot_eq_nil_iff : n.slot.children = [] ↔ n.isLeaf = true := by
  rw [slot, List.map_eq_nil_iff, children_eq_nil_iff]

namespace Arena

/-! ### Lookups -/

theorem Holds.live_eq (held : a.Holds t) (ht : t.Numbered) (id : NodeId) :
    a.live id = (t.live id).map Placed.slot := by
  rw [live, Tree.live]
  cases found : t.node? id with
  | some n =>
    obtain ⟨hn, rfl⟩ := ht.node?_eq_some_iff.1 found
    rw [held.slots n hn]
    rfl
  | none =>
    have none : (a.slot? id).filter (·.alive) = none := by
      refine Option.filter_eq_none_iff.2 fun s hs alive => ?_
      have some := Tree.isSome_node?_iff.2 (held.dead id s hs alive)
      simp [found] at some
    rw [none]
    rfl

/-! ### A text that is replaced -/

section Replacing

variable {s : Slot} {id parent : NodeId} {text : String} (alive : a.live id = .ok s)
include alive

theorem replaceText_of_composite (children : s.children ≠ []) :
    a.replaceText id text = ⟨.error (.invalidEdit (.notLeaf s.kind s.span)), a⟩ := by
  rw [replaceText, alive]
  exact if_pos children

variable (leaf : s.children = [])
include leaf

theorem replaceText_of_long (long : 2 ^ 32 ≤ a.lengthWith s text) :
    a.replaceText id text = ⟨.error (.invalidEdit .tooLong), a⟩ := by
  rw [replaceText, alive]
  exact (if_neg (not_not.2 leaf)).trans (if_pos long)

variable (room : a.lengthWith s text < 2 ^ 32)
include room

theorem replaceText_of_root (root : s.parent = none) :
    a.replaceText id text = ⟨.ok (newSpan s text), a.rewrite id s text⟩ := by
  rw [replaceText, alive]
  refine ((if_neg (not_not.2 leaf)).trans (if_neg (Nat.not_le.2 room))).trans ?_
  simp only [root]

theorem replaceText_of_child (named : s.parent = some parent)
    (found : (a.rewrite id s text).childIndex parent id = .ok i) :
    a.replaceText id text = ⟨.ok (newSpan s text),
      (a.rewrite id s text).shiftFollowing parent (i + 1)
        (text.utf8ByteSize - s.span.length)⟩ := by
  rw [replaceText, alive]
  refine ((if_neg (not_not.2 leaf)).trans (if_neg (Nat.not_le.2 room))).trans ?_
  simp only [named, found]

end Replacing

/-- **The lookup after the first writes**: a child is found where it is. -/
theorem Holds.childIndex_rewrite (held : a.Holds t) (ht : t.Numbered) {q : Placed}
    (hq : q ∈ t.nodes) {before behind : List Placed} (split : q.children = before ++ n :: behind)
    (text : String) : (a.rewrite n.id n.slot text).childIndex q.id n.id = .ok before.length := by
  obtain ⟨out, hd⟩ := List.nodup_cons.1 (Content.nodup_of_mem ht.nodup hq)
  have ne : n.id ≠ q.id := fun e => out (e ▸ by rw [Placed.ids_split split]; simp)
  have kept : (a.rewrite n.id n.slot text).slot? q.id = some q.slot := by
    rw [rewrite, slot?_modify, if_neg ne]
    exact held.slots q hq
  rw [childIndex_eq kept, Tree.childIndex_eq_ok_iff]
  exact Placed.findIdx?_children hd split

/-- The source becomes as long in place as it does in the tree. -/
theorem Holds.lengthWith_eq (held : a.Holds t) (n : Placed) (text : String) :
    a.lengthWith n.slot text = t.lengthWith n text := by
  rw [lengthWith, Tree.lengthWith, held.source, Tree.source, ← Content.width_eq]
  simp [Placed.slot, Placed.span, Span.length]

theorem Holds.size_le (held : a.Holds t) (ht : t.Numbered) : t.size ≤ a.slots.size := by
  rw [Tree.size_eq_length_nodes]
  refine Lists.length_le ⟨ht.nodup_nodes, fun n hn => ⟨n.slot, held.slots n hn, rfl⟩⟩

end Arena

/-! ### A replaced text -/

/-- Replacing the text of a leaf is a change of one node. -/
theorem Tree.Numbered.resizes_tail (ht : t.Numbered) (hn : n ∈ t.nodes) (text : String) :
    t.Resizes n.id (fun _ => .tail text) (text.utf8ByteSize - n.span.length) := by
  refine ⟨ht, fun c => List.nil_sublist _, fun m hm same => ?_⟩
  rw [ht.eq_of_id_eq hm hn same]
  simp only [Content.width, Placed.span, Span.length]
  omega

namespace Arena

/-- The first writes: the slot of the leaf is new. -/
theorem Holds.rewrite (held : a.Holds t) (ht : t.Numbered) (hn : n ∈ t.nodes)
    (leaf : n.isLeaf = true) (text : String) :
    (a.rewrite n.id n.slot text).Through t n.id (fun _ => .tail text) n := by
  have same : n.changed n.id (fun _ => .tail text) = { n with body := .tail text } := by
    simp [Placed.changed, Content.altered]
  have written : ∀ k, (a.rewrite n.id n.slot text).slot? k =
      if n.id = k then (a.slot? k).map fun s => { s with span := newSpan n.slot text }
      else a.slot? k := fun k => by rw [Arena.rewrite, slot?_modify, slot?_splice]
  constructor
  case inside =>
    intro m hm
    rw [same] at hm
    obtain rfl : m = { n with body := .tail text } := by
      simpa [Placed.preorder, Placed.descendants, Content.preorder] using hm
    have children : n.slot.children = [] := Placed.children_slot_eq_nil_iff.2 leaf
    rw [written, if_pos rfl, held.slots n hn]
    simp only [Option.map_some, children, Option.some.injEq]
    simp [Placed.slot, Placed.span, newSpan, Placed.children, Content.siblings, Content.width]
  case outside =>
    intro m hm elsewhere
    have ne : n.id ≠ m.id := fun e => elsewhere (e ▸ List.mem_cons_self)
    rw [written, if_neg ne]
    exact held.slots m hm
  case dead =>
    intro k s found alive
    have mem : k ∈ t.content.ids := by
      rw [written] at found
      by_cases e : n.id = k
      · exact e ▸ Content.id_mem_ids hn
      · rw [if_neg e] at found
        exact held.dead k s found alive
    have spliced := ht.spliced (ht.resizes_tail hn text).drops hn
      (Placed.change_of_isLeaf leaf text)
    exact Tree.isSome_node?_iff.1 ((spliced.alive k).2 ⟨Tree.isSome_node?_iff.2 mem, by simp⟩)

/-- **Replacing the text of a leaf in place.** -/
theorem Holds.replaceText_leaf (held : a.Holds t) (ht : t.Numbered) (hn : n ∈ t.nodes)
    (leaf : n.isLeaf = true) {text : String} (room : t.lengthWith n text < 2 ^ 32) :
    (a.replaceText n.id text).result = .ok ⟨n.start, n.start + text.utf8ByteSize⟩ ∧
      (a.replaceText n.id text).arena.Holds (t.alter n.id fun _ => .tail text) := by
  have live : a.live n.id = .ok n.slot := by
    rw [held.live_eq ht, Tree.live_eq_ok_iff.2 (ht.node?_id hn)]
    rfl
  have through := held.rewrite ht hn leaf text
  have resizes := ht.resizes_tail hn text
  have source : (a.rewrite n.id n.slot text).source =
      (t.alter n.id fun _ => .tail text).source := by
    rw [(ht.spliced resizes.drops hn (Placed.change_of_isLeaf leaf text)).source, ← held.source]
    rfl
  have size : (a.rewrite n.id n.slot text).slots.size = a.slots.size := by
    simp [Arena.rewrite, splice]
  have simple : n.slot.children = [] := Placed.children_slot_eq_nil_iff.2 leaf
  have enough : a.lengthWith n.slot text < 2 ^ 32 := by rwa [held.lengthWith_eq]
  rcases Tree.eq_top_or_mem_children hn with rfl | ⟨q, hq, child, named⟩
  · rw [replaceText_of_root live simple enough rfl]
    exact ⟨rfl, through.holds source⟩
  · obtain ⟨before, behind, split⟩ := List.append_of_mem child
    have below : n.id ∈ q.body.ids := by
      rw [Placed.ids_split split]
      simp
    have found := held.childIndex_rewrite ht hq split text
    have due := through.due resizes hq split List.mem_cons_self
    rw [replaceText_of_child live simple enough named found]
    refine ⟨rfl, Through.holds ?_ ?_⟩
    · refine due.shiftFollowing resizes hq (List.mem_cons_of_mem _ below) ?_
      rw [size]
      exact held.size_le ht
    · rw [shiftFollowing_eq, source_climb, source]

end Arena

/-! ### Removed children -/

/-- Removing children is a change of one node. -/
theorem Tree.Numbered.resizes_cut (ht : t.Numbered) (hp : p ∈ t.nodes) (hij : i ≤ j)
    (hx : p.children[i]? = some x) (hy : p.children[j]? = some y) :
    t.Resizes p.id (·.cut x.id y.id) (-(Span.length ⟨x.start, y.span.stop⟩)) := by
  refine ⟨ht, Content.ids_cut_sublist x.id y.id, fun m hm same => ?_⟩
  rw [ht.eq_of_id_eq hm hp same]
  have hd := (List.nodup_cons.1 (Content.nodup_of_mem ht.nodup hp)).2
  obtain ⟨before, mid, rest, cutting⟩ := Content.cut_spec hd hij hx hy
  rw [Content.width_eq, Content.width_eq, cutting.text, cutting.text', cutting.last]
  simp only [String.utf8ByteSize_append, Span.length]
  omega

section Cutting

variable {before mid : String} {rest : Content}

/-- The children behind those that are removed. -/
theorem Placed.drop_children {c : Content} (hij : i ≤ j)
    (cutting : p.body.Cutting c p.start (some p.id) i j x y before mid rest) :
    p.children.drop (j + 1) = rest.siblings y.span.stop (some p.id) := by
  have parts : p.children.take (j + 1) =
      p.children.take i ++ (p.children.drop i).take (j + 1 - i) := by
    rw [← List.take_add]
    congr 1
    omega
  refine List.append_cancel_left ((List.take_append_drop (j + 1) p.children).trans ?_)
  rw [parts]
  exact cutting.siblings

/-- **The children that are left**: those before the removed ones, and those behind, moved. -/
theorem Placed.children_cut (hij : i ≤ j)
    (cutting : p.body.Cutting (p.body.cut x.id y.id) p.start (some p.id) i j x y before mid rest) :
    (p.changed p.id (·.cut x.id y.id)).children = p.children.take i ++
      (p.children.drop (j + 1)).map (Placed.shift (-(Span.length ⟨x.start, y.span.stop⟩))) := by
  have moves : rest.siblings x.start (some p.id) =
      (rest.siblings y.span.stop (some p.id)).map
        (Placed.shift (-(Span.length ⟨x.start, y.span.stop⟩))) := by
    refine Content.siblings_shift ?_ (some p.id)
    simp only [Span.length, cutting.last]
    omega
  rw [p.drop_children hij cutting, ← moves, Placed.children, Placed.changed, Content.altered,
    if_pos rfl]
  exact cutting.siblings'

end Cutting

namespace Arena

/-- What becomes of the slots when children of a node are taken out. -/
theorem slot?_drain (slots : ∀ n ∈ t.nodes, a.slot? n.id = some n.slot) (ht : t.Numbered)
    (hp : p ∈ t.nodes) {c rest : Content} {before mid : String}
    (cutting : p.body.Cutting c p.start (some p.id) i j x y before mid rest) (k : NodeId) :
    (a.drain p.id i j).slot? k =
      if k ∈ p.subtrees i j then (a.slot? k).map Slot.kill
      else if p.id = k then (a.slot? k).map fun s =>
        { s with children := s.children.take i ++ s.children.drop (j + 1) }
      else a.slot? k := by
  obtain ⟨out, hd⟩ := List.nodup_cons.1 (Content.nodup_of_mem ht.nodup hp)
  have doomed : ((a.slot p.id).children.drop i).take (j + 1 - i) =
      ((p.children.drop i).take (j + 1 - i)).map (·.id) := by
    rw [slot_of_slot? (slots p hp), List.map_take, List.map_drop]
    rfl
  have inside : ∀ m ∈ ((p.children.drop i).take (j + 1 - i)).flatMap Placed.preorder,
      m ∈ p.descendants := by
    rw [Placed.descendants, cutting.nodes]
    exact fun m hm => List.mem_append_left _ (List.mem_append_right _ hm)
  have goes : p.id ∉ p.subtrees i j := by
    intro h
    obtain ⟨m, hm, same⟩ := List.mem_map.1 h
    exact out (same ▸ Content.id_mem_ids (inside m hm))
  have distinct : (p.subtrees i j).Nodup := by
    rw [(Placed.ids_cutting cutting).1] at hd
    exact (List.nodup_append.1 (List.nodup_append.1 hd).1).2.1
  rw [drain, doomed, slot?_foldl_below (f := .kill) (fun s => rfl) ⟨distinct, fun m hm => ?_⟩]
  · have ids : (((p.children.drop i).take (j + 1 - i)).flatMap Placed.preorder).map (·.id) =
        p.subtrees i j := rfl
    rw [ids, slot?_modify]
    by_cases e : p.id = k
    · rw [if_pos e, if_neg (e ▸ goes), if_neg (e ▸ goes)]
    · rw [if_neg e]
  · have below := inside m hm
    have ne : p.id ≠ m.id := fun e => out (e ▸ Content.id_mem_ids below)
    refine ⟨m.slot, ?_, rfl⟩
    rw [slot?_modify, if_neg ne]
    exact slots m (Content.mem_preorder_of_mem_descendants hp below)

/-- Only what is left is alive. -/
theorem Holds.dead_drain (held : a.Holds t) (ht : t.Numbered) (hp : p ∈ t.nodes) (hij : i ≤ j)
    (hx : p.children[i]? = some x) (hy : p.children[j]? = some y) {s : Span} {text : String}
    {k : NodeId} {slot : Slot} (found : ((a.splice s text).drain p.id i j).slot? k = some slot)
    (alive : slot.alive = true) : k ∈ (t.alter p.id (·.cut x.id y.id)).content.ids := by
  obtain ⟨-, hd⟩ := List.nodup_cons.1 (Content.nodup_of_mem ht.nodup hp)
  obtain ⟨before, mid, rest, cutting⟩ := Content.cut_spec hd hij hx hy
  have spliced := ht.spliced (ht.resizes_cut hp hij hx hy).drops hp (Placed.change_cut hd hij hx hy)
  rw [slot?_drain (a := a.splice s text) held.slots ht hp cutting] at found
  simp only [slot?_splice] at found
  by_cases gone : k ∈ p.subtrees i j
  · rw [if_pos gone] at found
    obtain ⟨s, -, rfl⟩ := Option.map_eq_some_iff.1 found
    simp [Slot.kill] at alive
  · refine Tree.isSome_node?_iff.1 ((spliced.alive k).2 ⟨Tree.isSome_node?_iff.2 ?_, gone⟩)
    by_cases e : p.id = k
    · exact e ▸ Content.id_mem_ids hp
    · rw [if_neg gone, if_neg e] at found
      exact held.dead k slot found alive

/-- The writes to links: the children that go are out of the list, and they and what is below them
are dead; what is behind them has yet to move. -/
theorem Holds.drain (held : a.Holds t) (ht : t.Numbered) (hp : p ∈ t.nodes) (hij : i ≤ j)
    (hx : p.children[i]? = some x) (hy : p.children[j]? = some y) (s : Span) (text : String) :
    ((a.splice s text).drain p.id i j).Due t p.id (·.cut x.id y.id)
      (-(Span.length ⟨x.start, y.span.stop⟩)) p i := by
  obtain ⟨out, hd⟩ := List.nodup_cons.1 (Content.nodup_of_mem ht.nodup hp)
  have resizes := ht.resizes_cut hp hij hx hy
  have change := Placed.change_cut hd hij hx hy
  obtain ⟨before, mid, rest, cutting⟩ := Content.cut_spec hd hij hx hy
  obtain ⟨early, late⟩ := Placed.not_mem_subtrees hd cutting
  have drained := slot?_drain (a := a.splice s text) held.slots ht hp cutting
  simp only [slot?_splice] at drained
  have kept : ∀ m ∈ p.descendants, m.id ∉ p.subtrees i j →
      ((a.splice s text).drain p.id i j).slot? m.id = some m.slot := by
    intro m hm keep
    have ne : p.id ≠ m.id := fun e => out (e ▸ Content.id_mem_ids hm)
    rw [drained, if_neg keep, if_neg ne]
    exact held.slots m (Content.mem_preorder_of_mem_descendants hp hm)
  have children := p.children_cut hij cutting
  have length : (p.children.take i).length = i := by
    have := (List.getElem?_eq_some_iff.1 hx).1
    rw [List.length_take]
    omega
  constructor
  case here =>
    refine ⟨{ p.slot with children := p.slot.children.take i ++ p.slot.children.drop (j + 1) },
      ?_, ?_⟩
    · rw [drained, if_neg fun h => out (change.below _ h), if_pos rfl, held.slots p hp]
      rfl
    · have names : (p.changed p.id (·.cut x.id y.id)).children.map (·.id) =
          p.slot.children.take i ++ p.slot.children.drop (j + 1) := by
        rw [children, Placed.slot, List.map_append, List.map_map, List.map_take, List.map_drop]
        rfl
      rw [← resizes.stretch_slot hp List.mem_cons_self, names]
  case done =>
    intro m hm
    rw [children, List.take_append_of_le_length (by omega), List.take_take, Nat.min_self] at hm
    refine kept m ?_ (early _ (List.mem_map_of_mem hm))
    rw [Placed.descendants, cutting.nodes]
    exact List.mem_append_left _ (List.mem_append_left _ hm)
  case due =>
    intro m hm
    rw [children, List.drop_left' length] at hm
    have there : ∀ z ∈ (p.children.drop (j + 1)).flatMap Placed.preorder,
        z ∈ rest.preorder y.span.stop (some p.id) := by
      rw [p.drop_children hij cutting, ← Content.preorder_eq_flatMap_siblings]
      exact fun z hz => hz
    obtain ⟨z, hz, same, moved⟩ := Placed.exists_of_mem_shift (fun z hz => by
      have := (Content.within (there z hz)).1
      simp only [Span.length]
      omega) hm
    refine ⟨z.slot, same ▸ kept z ?_ (late _ (Content.id_mem_ids (there z hz))), moved⟩
    rw [Placed.descendants, cutting.nodes]
    exact List.mem_append_right _ (there z hz)
  case outside =>
    intro m hm elsewhere
    have ne : p.id ≠ m.id := fun e => elsewhere (e ▸ List.mem_cons_self)
    rw [drained, if_neg fun h => elsewhere (List.mem_cons_of_mem _ (change.below _ h)), if_neg ne]
    exact held.slots m hm
  case dead => exact fun k s found alive => held.dead_drain ht hp hij hx hy found alive

/-- **Removing children in place.** -/
theorem Holds.removeRange_children (held : a.Holds t) (ht : t.Numbered) (hp : p ∈ t.nodes)
    (hij : i ≤ j) (hx : p.children[i]? = some x) (hy : p.children[j]? = some y) :
    ((a.splice ⟨x.start, y.span.stop⟩ "").drain p.id i j |>.shiftFollowing p.id i
      (-(Span.length ⟨x.start, y.span.stop⟩))).Holds (t.alter p.id (·.cut x.id y.id)) := by
  have resizes := ht.resizes_cut hp hij hx hy
  have due := held.drain ht hp hij hx hy ⟨x.start, y.span.stop⟩ ""
  have hd := (List.nodup_cons.1 (Content.nodup_of_mem ht.nodup hp)).2
  refine Through.holds (due.shiftFollowing resizes hp List.mem_cons_self ?_) ?_
  · rw [Arena.drain, size_foldl_below, size_modify]
    exact held.size_le ht
  · rw [shiftFollowing_eq, source_climb, Arena.drain, source_foldl_below, source_modify,
      (ht.spliced resizes.drops hp (Placed.change_cut hd hij hx hy)).source, ← held.source]
    rfl

/-! ### Edits -/

/-- An edit in place that goes as the edit of the tree does, and writes nothing if it is
refused. -/
structure Mirrors (a : Arena) (r : Outcome) (u : Edited) : Prop where
  result : r.result = u.result
  holds : r.arena.Holds u.tree
  atomic : ∀ fault, r.result = .error fault → r.arena = a

theorem Holds.mirrors (held : a.Holds t) (fault : TreeError) :
    a.Mirrors ⟨.error fault, a⟩ ⟨.error fault, t⟩ :=
  ⟨rfl, held, fun _ _ => rfl⟩

theorem Mirrors.made {b : Arena} {u : Tree} (held : b.Holds u) (s : Span) :
    a.Mirrors ⟨.ok s, b⟩ ⟨.ok s, u⟩ :=
  ⟨rfl, held, fun _ refused => by simp at refused⟩

theorem Holds.replaceText (held : a.Holds t) (ht : t.Numbered) (id : NodeId) (text : String) :
    a.Mirrors (a.replaceText id text) (t.tryEdit (.replace id text)) := by
  have live := held.live_eq ht id
  cases alive : t.live id with
  | error e =>
    have refused : t.tryEdit (.replace id text) = ⟨.error e, t⟩ := by
      simp [Tree.tryEdit, Tree.edit, Tree.replaceText, alive, bind, Except.bind]
    rw [alive] at live
    rw [refused, Arena.replaceText, live]
    exact held.mirrors e
  | ok n =>
    obtain ⟨hn, rfl⟩ := ht.node?_eq_some_iff.1 (Tree.live_eq_ok_iff.1 alive)
    cases leaf : n.isLeaf with
    | true =>
      rcases Nat.lt_or_ge (t.lengthWith n text) (2 ^ 32) with room | long
      · obtain ⟨result, holds⟩ := held.replaceText_leaf ht hn leaf room
        have made : t.replaceText n.id text = .ok (t.alter n.id fun _ => .tail text,
            ⟨n.start, n.start + text.utf8ByteSize⟩) :=
          Tree.replaceText_eq_ok_iff.2 ⟨n, ht.node?_id hn, leaf, room, rfl, rfl⟩
        simp only [Tree.tryEdit, Tree.edit, made]
        exact ⟨result, holds, fun fault refused => by simp [result] at refused⟩
      · have refused : t.tryEdit (.replace n.id text) = ⟨.error (.invalidEdit .tooLong), t⟩ := by
          rw [Tree.tryEdit, Tree.edit, Tree.replaceText_of_long (ht.node?_id hn) leaf long]
        have simple : n.slot.children = [] := Placed.children_slot_eq_nil_iff.2 leaf
        rw [alive] at live
        rw [refused, replaceText_of_long live simple (by rwa [held.lengthWith_eq])]
        exact held.mirrors _
    | false =>
      have refused : t.tryEdit (.replace n.id text) =
          ⟨.error (.invalidEdit (.notLeaf n.kind n.span)), t⟩ := by
        rw [Tree.tryEdit, Tree.edit, Tree.replaceText_of_composite (ht.node?_id hn) leaf]
      have composite : n.slot.children ≠ [] := fun h => by
        simp [Placed.children_slot_eq_nil_iff.1 h] at leaf
      rw [alive] at live
      rw [refused, replaceText_of_composite live composite]
      exact held.mirrors _

theorem Holds.removeRange (held : a.Holds t) (ht : t.Numbered) (parent first last : NodeId) :
    a.Mirrors (a.removeRange parent first last) (t.tryEdit (.remove parent first last)) := by
  have liveP := held.live_eq ht parent
  have liveX := held.live_eq ht first
  have liveY := held.live_eq ht last
  unfold Tree.tryEdit Tree.edit Tree.removeRange Arena.removeRange
  cases alive : t.live parent with
  | error e =>
    simp only [liveP, alive, Except.map, bind, Except.bind]
    exact held.mirrors e
  | ok p =>
    obtain ⟨hp, rfl⟩ := ht.node?_eq_some_iff.1 (Tree.live_eq_ok_iff.1 alive)
    have indexX := childIndex_eq (held.slots p hp) first
    have indexY := childIndex_eq (held.slots p hp) last
    cases aliveX : t.live first with
    | error e =>
      simp only [liveP, liveX, alive, aliveX, Except.map, bind, Except.bind]
      exact held.mirrors e
    | ok x =>
      cases aliveY : t.live last with
      | error e =>
        simp only [liveP, liveX, liveY, alive, aliveX, aliveY, Except.map, bind, Except.bind]
        exact held.mirrors e
      | ok y =>
        cases placeX : Tree.childIndex p first with
        | error e =>
          simp only [liveP, liveX, liveY, alive, aliveX, aliveY, indexX, placeX, Except.map, bind,
            Except.bind]
          exact held.mirrors e
        | ok i =>
          cases placeY : Tree.childIndex p last with
          | error e =>
            simp only [liveP, liveX, liveY, alive, aliveX, aliveY, indexX, indexY, placeX, placeY,
              Except.map, bind, Except.bind]
            exact held.mirrors e
          | ok j =>
            simp only [liveP, liveX, liveY, alive, aliveX, aliveY, indexX, indexY, placeX, placeY,
              Except.map, bind, Except.bind, pure, Except.pure]
            by_cases order : j < i
            · simp only [order, if_true, throw, throwThe, MonadExceptOf.throw]
              exact held.mirrors _
            · obtain ⟨hx, rfl⟩ := ht.getElem?_of_findIdx? hp (Tree.live_eq_ok_iff.1 aliveX)
                (Tree.childIndex_eq_ok_iff.1 placeX)
              obtain ⟨hy, rfl⟩ := ht.getElem?_of_findIdx? hp (Tree.live_eq_ok_iff.1 aliveY)
                (Tree.childIndex_eq_ok_iff.1 placeY)
              simp only [order, if_false]
              exact .made (held.removeRange_children ht hp (by omega) hx hy) _

/-- **An edit in place is the edit of the tree**, and writes nothing if it is refused. -/
theorem Holds.edit (held : a.Holds t) (ht : t.Numbered) (e : Edit) :
    a.Mirrors (a.edit e) (t.tryEdit e) := by
  cases e with
  | replace id text => exact held.replaceText ht id text
  | remove parent first last => exact held.removeRange ht parent first last

end Arena

end SyntaxLint
