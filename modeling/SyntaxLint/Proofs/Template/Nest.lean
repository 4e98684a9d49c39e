import SyntaxLint.Proofs.Template.Nodes

/-!
# Proofs — Templates — the trees of rebound items

The items of a template and the rebound items are nested alike, event by event but for attributes,
each of which is one node either way.  So the tree of the rebound items is the tree of the items,
rebound.

* `Parallel`: two states, the second with all finished nodes rebound.
* `Parallel.nest`: the events of items keep them so.
* `finishes_rebind`: the nodes of items and of rebound items.
-/

namespace SyntaxLint

/-- An open node with its finished children rebound. -/
def OpenNode.rebind (space : String → Option String) (m : OpenNode) : OpenNode :=
  { m with children := m.children.map (Node.rebind space) }

/-- The tree in which the reported bindings are rebound. -/
def Tree.rebind (space : String → Option String) (t : Tree) : Tree :=
  { t with root := t.root.rebind space }

namespace Template

variable {space : String → Option String}

/-! ### Nodes of templates -/

/-- What is known of every node in the tree of a template. -/
structure Shaped (n : Node) : Prop where
  token : n.kind.isToken = true → n.body.isLeaf = true
  blank : n.kind = .whitespace → n.body.text ≠ ""
  binding : n.kind = .propertyBinding → ∃ (a : Attribute) (free : NodeId), n = a.node free

/-- Kinds of nodes that other nodes than those of attributes have. -/
def IsFrame (kind : Kind) : Prop := kind ∈ [Kind.document, .element, .startTag, .endTag]

theorem shaped_of_kind {n : Node} (token : n.kind.isToken = true → n.body.isLeaf = true)
    (h : n.kind ≠ .whitespace) (h' : n.kind ≠ .propertyBinding) : Shaped n :=
  ⟨token, fun e => absurd e h, fun e => absurd e h'⟩

theorem shaped_of_isFrame {n : Node} (h : IsFrame n.kind) : Shaped n := by
  have composite : n.kind.isToken = false := by
    simp only [IsFrame, List.mem_cons, List.not_mem_nil, or_false] at h
    rcases h with h | h | h | h <;> rw [h] <;> rfl
  refine shaped_of_kind (by simp [composite]) ?_ ?_ <;> intro e <;> rw [e] at h <;>
    simp [IsFrame] at h

theorem IsInner.shaped {n : Node} (h : IsInner n) : Shaped n :=
  ⟨h.token, h.blank, fun e => absurd e h.binding⟩

/-- The nodes of an attribute. -/
theorem Attribute.shaped_node (a : Attribute) (free : NodeId) {n : Node}
    (hn : n ∈ a.node free :: (a.node free).body.members) : Shaped n := by
  rcases List.mem_cons.1 hn with rfl | hn
  · have kind : (a.node free).kind.isAttribute = true := isAttribute_kindOf a.name
    refine ⟨by simp [isToken_of_isAttribute kind], fun e => ?_, fun _ => ⟨a, free, rfl⟩⟩
    rw [e] at kind
    simp [Kind.isAttribute] at kind
  · rcases a.members_node free hn with rfl | inner
    · exact ⟨fun _ => rfl, by simp, by simp⟩
    · exact inner.shaped

/-- Blanks in a tag are not empty. -/
def StartTag.Valid (tag : StartTag) : Prop := ∀ s, .blank s ∈ tag.parts → s ≠ []

def Item.Valid (i : Item) : Prop := ∀ tag, i = .start tag → tag.Valid

/-! ### States side by side -/

/-- Two states with `depth` open nodes, equal but for the finished nodes, which are rebound in the
second. -/
structure Parallel (space : String → Option String) (depth : Nat) (b b' : Building) : Prop where
  free : b'.free = b.free
  pending : b'.pending = b.pending.map (OpenNode.rebind space)
  depth : b.pending.length = depth
  noRoot : b.root = none ∧ b'.root = none
  fault : b'.fault = b.fault
  frames : ∀ m ∈ b.pending, IsFrame m.kind
  shaped : ∀ m ∈ b.pending, ∀ n ∈ (Content.ofNodes m.children).members, Shaped n

namespace Parallel

variable {depth : Nat} {b b' : Building}

theorem empty : Parallel space 0 .empty .empty :=
  ⟨rfl, rfl, rfl, ⟨rfl, rfl⟩, rfl, by simp [Building.empty], by simp [Building.empty]⟩

/-- The innermost open nodes. -/
theorem exists_pending (h : Parallel space (depth + 1) b b') :
    ∃ m rest, b.pending = m :: rest ∧ rest.length = depth ∧
      b'.pending = m.rebind space :: rest.map (OpenNode.rebind space) := by
  cases hp : b.pending with
  | nil => have := h.depth; simp [hp] at this
  | cons m rest =>
    refine ⟨m, rest, rfl, ?_, ?_⟩
    · have := h.depth
      simpa [hp] using this
    · rw [h.pending, hp, List.map_cons]

/-- A finished node is added to the innermost open one. -/
theorem push {m : OpenNode} {rest : List OpenNode} {n n' : Node} {free : NodeId}
    {offset offset' : Nat} (h : Parallel space (depth + 1) b b') (hp : b.pending = m :: rest)
    (same : n' = n.rebind space) (hn : ∀ x ∈ n :: n.body.members, Shaped x) :
    Parallel space (depth + 1)
      ⟨offset, free, ⟨m.kind, n :: m.children⟩ :: rest, none, b.fault⟩
      ⟨offset', free, ⟨m.kind, n' :: (m.rebind space).children⟩ ::
        rest.map (OpenNode.rebind space), none, b'.fault⟩ := by
  subst same
  have frames := h.frames
  have shaped := h.shaped
  have size := h.depth
  rw [hp] at frames shaped size
  refine ⟨rfl, rfl, size, ⟨rfl, rfl⟩, h.fault, fun k hk => ?_, fun k hk => ?_⟩
  · rcases List.mem_cons.1 hk with rfl | hk
    · exact frames m List.mem_cons_self
    · exact frames k (List.mem_cons_of_mem _ hk)
  · rcases List.mem_cons.1 hk with rfl | hk
    · intro x hx
      simp only [Content.members_ofNodes, List.flatMap_cons, List.mem_append] at hx
      rcases hx with hx | hx
      · exact hn x hx
      · exact shaped m List.mem_cons_self x (by rwa [Content.members_ofNodes])
    · exact shaped k (List.mem_cons_of_mem _ hk)

theorem start (h : Parallel space depth b b') (kind : Kind) (hk : IsFrame kind) :
    Parallel space (depth + 1) (b.step (.start kind)) (b'.step (.start kind)) := by
  obtain ⟨none, none'⟩ := h.noRoot
  simp only [Building.step, none, none']
  refine ⟨h.free, by simp [h.pending, OpenNode.rebind], by simp [h.depth], ⟨rfl, rfl⟩, h.fault,
    fun m hm => ?_, fun m hm => ?_⟩
  · rcases List.mem_cons.1 hm with rfl | hm
    · exact hk
    · exact h.frames m hm
  · rcases List.mem_cons.1 hm with rfl | hm
    · simp [Content.ofNodes, Content.members]
    · exact h.shaped m hm

theorem token {kind : Kind} {text : String} (h : Parallel space (depth + 1) b b')
    (hs : ∀ free, Shaped ⟨free, kind, .tail text⟩) :
    Parallel space (depth + 1) (b.step (.token kind text)) (b'.step (.token kind text)) := by
  obtain ⟨m, rest, hp, -, hp'⟩ := h.exists_pending
  simp only [Building.step, hp, hp', h.free, h.noRoot]
  refine h.push hp (Node.rebind_leaf b.free kind text).symm fun x hx => ?_
  obtain rfl : x = ⟨b.free, kind, .tail text⟩ := by simpa [Content.members] using hx
  exact hs b.free

/-- The states without the innermost open node. -/
theorem pop {m : OpenNode} {rest : List OpenNode} (h : Parallel space (depth + 1) b b')
    (hp : b.pending = m :: rest) :
    Parallel space depth { b with pending := rest }
      { b' with pending := rest.map (OpenNode.rebind space) } := by
  have frames := h.frames
  have shaped := h.shaped
  have size := h.depth
  rw [hp] at frames shaped size
  exact ⟨h.free, rfl, by simpa using size, h.noRoot, h.fault,
    fun k hk => frames k (List.mem_cons_of_mem _ hk),
    fun k hk => shaped k (List.mem_cons_of_mem _ hk)⟩

/-- The node of a frame. -/
theorem rebind_frame {m : OpenNode} (hk : IsFrame m.kind) (free : NodeId) :
    (Node.mk free m.kind (Content.ofNodes m.children.reverse)).rebind space =
      ⟨free, m.kind, Content.ofNodes (m.rebind space).children.reverse⟩ := by
  have apart : m.kind ≠ .propertyBinding := by
    intro e
    rw [e] at hk
    simp [IsFrame] at hk
  rw [Node.rebind, Node.isReported_of_kind apart]
  simp [Content.rebind_ofNodes, OpenNode.rebind]

theorem shaped_frame {m : OpenNode} (hk : IsFrame m.kind)
    (hs : ∀ n ∈ (Content.ofNodes m.children).members, Shaped n) (free : NodeId) {n : Node}
    (hn : n ∈ Node.mk free m.kind (Content.ofNodes m.children.reverse) ::
      (Content.ofNodes m.children.reverse).members) : Shaped n := by
  rcases List.mem_cons.1 hn with rfl | hn
  · exact shaped_of_isFrame hk
  · refine hs n ?_
    rw [Content.members_ofNodes] at hn ⊢
    exact ((List.reverse_perm m.children).flatMap_right _).mem_iff.1 hn

/-- A frame that is finished inside another. -/
theorem finish (h : Parallel space (depth + 2) b b') :
    Parallel space (depth + 1) (b.step .finish) (b'.step .finish) := by
  obtain ⟨m, rest, hp, size, hp'⟩ := h.exists_pending
  cases rest with
  | nil => simp at size
  | cons k rest =>
    have mem : m ∈ b.pending := hp ▸ List.mem_cons_self
    have frame := h.frames m mem
    simp only [Building.step, hp, hp', h.free, h.noRoot, List.map_cons]
    exact (h.pop hp).push rfl (rebind_frame frame b.free).symm
      fun x hx => shaped_frame frame (h.shaped m mem) b.free hx

/-- An attribute, rebound in the second state. -/
theorem run_attribute (h : Parallel space (depth + 1) b b') (hs : OneSpace space)
    (a : Attribute) :
    Parallel space (depth + 1) (b.run a.events)
      (b'.run (a.rebind (squeezeBy space)).events) := by
  obtain ⟨m, rest, hp, -, hp'⟩ := h.exists_pending
  obtain ⟨offset, free, pending, root, fault⟩ := b
  obtain ⟨offset', free', pending', root', fault'⟩ := b'
  obtain ⟨rfl, rfl⟩ := h.noRoot
  obtain rfl : free' = free := h.free
  obtain rfl : pending = m :: rest := hp
  obtain rfl : pending' = m.rebind space :: rest.map (OpenNode.rebind space) := hp'
  obtain ⟨same, size⟩ := a.node_rebind hs free'
  obtain ⟨o, run⟩ := a.adds_events offset free' m rest fault
  obtain ⟨o', run'⟩ := (a.rebind (squeezeBy space)).adds_events offset' free' (m.rebind space)
    (rest.map (OpenNode.rebind space)) fault'
  rw [run, run', size]
  exact h.push rfl same fun x hx => a.shaped_node free' hx

/-- A token of a kind that is neither white space nor a name. -/
theorem plain (h : Parallel space (depth + 1) b b') (kind : Kind) (text : String)
    (hk : kind ∈ [Kind.tagOpen, .tagClose, .tagName, .text, .comment, .error]) :
    Parallel space (depth + 1) (b.step (.token kind text)) (b'.step (.token kind text)) := by
  refine h.token fun free => shaped_of_kind (fun _ => rfl) ?_ ?_ <;> intro e <;> subst e <;>
    simp at hk

theorem blank {cs : List Char} (h : Parallel space (depth + 1) b b') (ne : cs ≠ []) :
    Parallel space (depth + 1) (b.step (Template.token .whitespace cs))
      (b'.step (Template.token .whitespace cs)) :=
  h.token fun free => (isInner_blank ne free).shaped

theorem run_parts (hs : OneSpace space) {parts : List TagPart}
    (valid : ∀ s, .blank s ∈ parts → s ≠ []) (h : Parallel space (depth + 1) b b') :
    Parallel space (depth + 1) (b.run (parts.flatMap TagPart.events))
      (b'.run ((parts.map (TagPart.rebind (squeezeBy space))).flatMap TagPart.events)) := by
  induction parts generalizing b b' with
  | nil => exact h
  | cons p parts ih =>
    have valid' : ∀ s, .blank s ∈ parts → s ≠ [] := fun s hs => valid s (List.mem_cons_of_mem p hs)
    rw [List.map_cons, List.flatMap_cons, List.flatMap_cons, Building.run_append,
      Building.run_append]
    refine ih valid' ?_
    cases p with
    | blank s => exact h.blank (valid s List.mem_cons_self)
    | attr a => exact h.run_attribute hs a
    | stray c => exact h.plain _ _ (by simp)

theorem run_startTag (h : Parallel space (depth + 1) b b') (hs : OneSpace space) {tag : StartTag}
    (valid : tag.Valid) :
    Parallel space (depth + 1) (b.run tag.events)
      (b'.run (tag.rebind (squeezeBy space)).events) := by
  have head := ((h.start .startTag (by simp [IsFrame])).plain .tagOpen "<" (by simp)).plain
    .tagName (String.ofList tag.name) (by simp)
  have parts := head.run_parts hs valid
  have all := (parts.plain .tagClose (String.ofList tag.closing) (by simp)).finish
  simp only [StartTag.events, Building.run_append]
  exact all

theorem run_endTag (h : Parallel space (depth + 1) b b') (tag : EndTag) :
    Parallel space (depth + 1) (b.run tag.events) (b'.run tag.events) := by
  have head := ((h.start .endTag (by simp [IsFrame])).plain .tagOpen "</" (by simp)).plain
    .tagName (String.ofList tag.name) (by simp)
  have gap : Parallel space (depth + 2) (b.run (.start .endTag :: Template.token .tagOpen ['<', '/']
      :: Template.token .tagName tag.name :: token? .whitespace tag.gap))
      (b'.run (.start .endTag :: Template.token .tagOpen ['<', '/'] ::
        Template.token .tagName tag.name :: token? .whitespace tag.gap)) := by
    unfold token?
    split
    · exact head
    · rename_i full
      exact head.blank (by simpa using full)
  have all := (gap.plain .tagClose ">" (by simp)).finish
  simp only [EndTag.events, Building.run_append]
  exact all

/-- Several frames that are finished, one after the other. -/
theorem run_finish {n : Nat} (h : Parallel space (depth + n + 1) b b') :
    Parallel space (depth + 1) (b.run (List.replicate n .finish))
      (b'.run (List.replicate n .finish)) := by
  induction n generalizing b b' with
  | zero => exact h
  | succ n ih => exact ih h.finish

/-- **The events of items keep states side by side**, up to the end of all elements. -/
theorem run_nest (hs : OneSpace space) {items : List Item} (valid : ∀ i ∈ items, i.Valid)
    (names : List (List Char)) (h : Parallel space (names.length + 1) b b') :
    Parallel space 1 (b.run (nest names items))
      (b'.run (nest names (items.map (Item.rebind (squeezeBy space))))) := by
  -- rebinding keeps the names of tags, so the same elements are open on both sides
  induction items generalizing names b b' with
  | nil =>
    rw [← Nat.zero_add names.length] at h
    exact h.run_finish
  | cons i items ih =>
    have next : ∀ (names : List (List Char)) {b b' : Building},
        Parallel space (names.length + 1) b b' → Parallel space 1 (b.run (nest names items))
          (b'.run (nest names (items.map (Item.rebind (squeezeBy space))))) :=
      fun names _ _ h => ih (fun i hi => valid i (List.mem_cons_of_mem _ hi)) names h
    cases i with
    | comment inner => exact next _ (h.plain _ _ (by simp))
    | text cs => exact next _ (h.plain _ _ (by simp))
    | start tag =>
      have inside := (h.start .element (by simp [IsFrame])).run_startTag hs
        (valid _ List.mem_cons_self tag rfl)
      simp only [List.map_cons, Item.rebind, nest, Building.run_append]
      by_cases closed : tag.isClosed = true
      · have closed' : (tag.rebind (squeezeBy space)).isClosed = true := closed
        rw [if_pos closed, if_pos closed']
        exact next _ inside.finish
      · have closed' : ¬ (tag.rebind (squeezeBy space)).isClosed = true := closed
        rw [if_neg closed, if_neg closed']
        exact next (tag.name :: names) inside
    | close tag =>
      simp only [List.map_cons, Item.rebind, nest]
      cases found : names.findIdx? (Text.sameFolded tag.name) with
      | none =>
        rw [Building.run_append, Building.run_append]
        exact next _ (h.run_endTag tag)
      | some k =>
        -- the `k` elements inside the one that is closed end with it
        simp only [Building.run_append]
        obtain ⟨lt, -⟩ := List.findIdx?_eq_some_iff_getElem.1 found
        have size : names.length = (names.drop (k + 1)).length + 1 + k := by
          rw [List.length_drop]
          omega
        rw [size] at h
        exact next _ (h.run_finish.run_endTag tag).finish

end Parallel

/-! ### Trees -/

/-- The node that the end of the last open node makes, if no mistake was made. -/
theorem finishes_finish {b : Building} {m : OpenNode} (hp : b.pending = [m]) {root : Node} :
    (b.step .finish).Finishes root ↔
      b.fault = none ∧ root = ⟨b.free, m.kind, Content.ofNodes m.children.reverse⟩ := by
  simp only [Building.step, hp]
  constructor
  · rintro ⟨fault, -, root⟩
    exact ⟨fault, (Option.some.inj root).symm⟩
  · rintro ⟨fault, rfl⟩
    exact ⟨fault, rfl, rfl⟩

theorem run_documentEvents (items : List Item) : Building.empty.run (documentEvents items) =
    ((Building.empty.step (.start .document)).run (nest [] items)).step .finish := by
  rw [documentEvents, Building.run_append]
  rfl

/-- **The node of the rebound items is the rebound node**, and every node is shaped as in a
template. -/
theorem finishes_rebind (hs : OneSpace space) {items : List Item} (valid : ∀ i ∈ items, i.Valid)
    {root : Node} (h : (Building.empty.run (documentEvents items)).Finishes root) :
    (Building.empty.run (documentEvents (items.map (Item.rebind (squeezeBy space))))).Finishes
        (root.rebind space) ∧
      (∀ n ∈ root :: root.body.members, Shaped n) ∧ IsFrame root.kind := by
  have begin' : Parallel space 1 (Building.empty.step (.start .document))
      (Building.empty.step (.start .document)) := Parallel.empty.start _ (by simp [IsFrame])
  have inside : Parallel space 1 ((Building.empty.step (.start .document)).run (nest [] items))
      ((Building.empty.step (.start .document)).run
        (nest [] (items.map (Item.rebind (squeezeBy space))))) := begin'.run_nest hs valid []
  simp only [run_documentEvents] at h ⊢
  generalize (Building.empty.step (.start .document)).run (nest [] items) = b at h inside
  generalize (Building.empty.step (.start .document)).run
    (nest [] (items.map (Item.rebind (squeezeBy space)))) = b' at inside ⊢
  obtain ⟨m, rest, hp, size, hp'⟩ := inside.exists_pending
  obtain rfl := List.length_eq_zero_iff.1 size
  have mem : m ∈ b.pending := hp ▸ List.mem_cons_self
  have frame := inside.frames m mem
  obtain ⟨good, rfl⟩ := (finishes_finish hp).1 h
  refine ⟨(finishes_finish hp').2 ⟨inside.fault.trans good, ?_⟩,
    fun n hn => Parallel.shaped_frame frame (inside.shaped m mem) b.free hn, frame⟩
  rw [Parallel.rebind_frame frame, inside.free]
  rfl

end Template

end SyntaxLint
