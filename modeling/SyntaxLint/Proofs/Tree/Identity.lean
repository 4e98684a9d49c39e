import SyntaxLint.Proofs.Tree.Cut
import SyntaxLint.Proofs.Tree.Offsets
import SyntaxLint.Tree.Outline

/-!
# Proofs — Trees — distinct identities

Identities are given out in ascending order, to a node after the nodes below it, and are never
given out again.  So in every tree as it is built, and after every edit, the identities are
distinct and the root has the highest.

* `Building.step_numbered`, `Building.run_numbered`: one event, and any sequence of events.
* `Tree.numbered_ofEvents`, `Tree.numbered_ofOutline`: the trees that are built.
* `Tree.Numbered.alter`: a change that only drops identities.
-/

namespace SyntaxLint

/-- The identities of a node and of those below it. -/
def Node.ids (n : Node) : List NodeId := n.id :: n.body.ids

/-- The identities below a node are distinct and lower than its own. -/
structure Node.Numbered (n : Node) : Prop where
  distinct : n.body.ids.Nodup
  below : ∀ id ∈ n.body.ids, id < n.id

theorem Content.ids_ofNodes (ns : List Node) : (ofNodes ns).ids = ns.flatMap Node.ids := by
  induction ns with
  | nil => rfl
  | cons n ns ih => simp [ofNodes, ids, ih, Node.ids]

/-! ### Building from events -/

/-- The identities of the finished children of an open node. -/
def OpenNode.ids (n : OpenNode) : List NodeId := n.children.flatMap Node.ids

namespace Building

/-- The identities below open nodes are distinct and lower than the next free one, and so are
those below the root. -/
structure Numbered (b : Building) : Prop where
  distinct : (b.pending.flatMap OpenNode.ids).Nodup
  below : ∀ id ∈ b.pending.flatMap OpenNode.ids, id < b.free
  root : ∀ r, b.root = some r → r.Numbered

theorem empty_numbered : empty.Numbered := ⟨by simp [empty], by simp [empty], by simp [empty]⟩

theorem Numbered.fail {b : Building} (h : b.Numbered) (fault : BalanceFault) :
    (b.fail fault).Numbered :=
  ⟨h.distinct, h.below, h.root⟩

/-- The identities of the children of a node in the order they have in the node. -/
theorem ids_reverse_perm (n : OpenNode) :
    (Content.ofNodes n.children.reverse).ids.Perm n.ids := by
  rw [Content.ids_ofNodes]
  exact (List.reverse_perm n.children).flatMap_right _

/-- A node that is added to an open node, under the next free identity. -/
theorem numbered_add {free : NodeId} {root : Option Node} {rest : List OpenNode}
    {below : List NodeId} {m : OpenNode} (kind : Kind) {body : Content} (hb : body.ids.Perm below)
    (distinct : (below ++ (m :: rest).flatMap OpenNode.ids).Nodup)
    (lower : ∀ id ∈ below ++ (m :: rest).flatMap OpenNode.ids, id < free)
    (hr : ∀ r, root = some r → r.Numbered) (offset : Nat) (fault : Option BalanceFault) :
    Numbered ⟨offset, free + 1, { m with children := ⟨free, kind, body⟩ :: m.children } :: rest,
      root, fault⟩ := by
  have same : (({ m with children := ⟨free, kind, body⟩ :: m.children } :: rest).flatMap
      OpenNode.ids).Perm (free :: (below ++ (m :: rest).flatMap OpenNode.ids)) := by
    simp only [List.flatMap_cons, OpenNode.ids, Node.ids, List.cons_append, List.append_assoc]
    exact (hb.append_right _).cons free
  refine ⟨?_, fun x hx => ?_, hr⟩
  · rw [same.nodup_iff, List.nodup_cons]
    exact ⟨fun h => Nat.lt_irrefl _ (lower _ h), distinct⟩
  · rcases List.mem_cons.1 (same.mem_iff.1 hx) with rfl | hx
    · exact Nat.lt_succ_self _
    · exact Nat.lt_succ_of_lt (lower x hx)

/-- **One event keeps identities distinct.** -/
theorem step_numbered {b : Building} (h : b.Numbered) (e : Event) : (b.step e).Numbered := by
  obtain ⟨distinct, below, root⟩ := h
  cases e with
  | start kind =>
    rw [step]
    split
    · exact Numbered.fail ⟨distinct, below, root⟩ _
    · exact ⟨by simpa [OpenNode.ids] using distinct, by simpa [OpenNode.ids] using below, root⟩
  | token kind text =>
    rw [step]
    split
    · rename_i hp
      exact ⟨by simp [fail, hp], by simp [fail, hp], root⟩
    · rename_i n rest hp
      rw [hp] at distinct below
      exact numbered_add kind (List.Perm.refl (Content.tail text).ids) distinct below root _ _
  | finish =>
    rw [step]
    split
    · exact Numbered.fail ⟨distinct, below, root⟩ _
    · rename_i n rest hp
      rw [hp] at distinct below
      have ids := ids_reverse_perm n
      split
      -- the outermost node becomes the root, any other a child
      · refine ⟨by simp, by simp, fun r hr => ?_⟩
        obtain rfl : _ = r := by simpa using hr
        simp only [List.flatMap_cons, List.flatMap_nil, List.append_nil] at distinct below
        exact ⟨ids.nodup_iff.2 distinct, fun x hx => below x (ids.mem_iff.1 hx)⟩
      · exact numbered_add n.kind ids distinct below root _ _

/-- Any sequence of events keeps identities distinct. -/
theorem run_numbered {b : Building} (h : b.Numbered) (events : List Event) :
    (b.run events).Numbered := by
  induction events generalizing b with
  | nil => exact h
  | cons e events ih => exact ih (step_numbered h e)

theorem Finishes.numbered {events : List Event} {root : Node}
    (h : (empty.run events).Finishes root) : root.Numbered :=
  (run_numbered empty_numbered events).root root h.root

end Building

/-! ### Laying an outline over a text -/

/-- Laying an outline over a text gives out the identities from `free` on, each once. -/
theorem Content.numbered_ofOutline (pos stop : Nat) (cs : List Char) (free : NodeId)
    (o : Outline) :
    free ≤ (ofOutline pos stop cs free o).free ∧
      (ofOutline pos stop cs free o).content.ids.Nodup ∧
      ∀ id ∈ (ofOutline pos stop cs free o).content.ids,
        free ≤ id ∧ id < (ofOutline pos stop cs free o).free := by
  induction o generalizing pos stop cs free with
  | done => simp [ofOutline, ids]
  | node kind s children next ihc ihn =>
    simp only [ofOutline]
    -- the children are given theirs first, then the node, then what comes after it
    obtain ⟨le, distinct, range⟩ := ihc s.start s.stop (Text.splitBytes (s.start - pos) cs).2 free
    generalize ofOutline s.start s.stop (Text.splitBytes (s.start - pos) cs).2 free children =
      body at le distinct range
    obtain ⟨le', distinct', range'⟩ := ihn s.stop stop body.rest (body.free + 1)
    generalize ofOutline s.stop stop body.rest (body.free + 1) next = rest at le' distinct' range'
    refine ⟨Nat.le_trans le (Nat.le_of_succ_le le'), ?_, fun x hx => ?_⟩
    · simp only [ids, List.cons_append, List.nodup_cons, List.mem_append, List.nodup_append]
      refine ⟨?_, distinct, distinct', fun x hx y hy e => ?_⟩
      · rintro (h | h)
        · exact Nat.lt_irrefl _ (range _ h).2
        · exact Nat.not_succ_le_self _ (range' _ h).1
      · exact Nat.lt_irrefl x
          (Nat.lt_of_lt_of_le (range x hx).2 (Nat.le_of_succ_le (e ▸ (range' y hy).1)))
    · simp only [ids, List.cons_append, List.mem_cons, List.mem_append] at hx
      rcases hx with rfl | hx | hx
      · exact ⟨le, le'⟩
      · exact ⟨(range x hx).1, Nat.lt_of_lt_of_le (range x hx).2 (Nat.le_of_succ_le le')⟩
      · exact ⟨Nat.le_trans le (Nat.le_of_succ_le (range' x hx).1), (range' x hx).2⟩

/-! ### Trees -/

namespace Tree

/-- The identities of a tree are distinct and the root has the highest. -/
def Numbered (t : Tree) : Prop := t.root.Numbered

variable {t : Tree}

theorem Numbered.nodup (h : t.Numbered) : t.content.ids.Nodup := by
  simp only [content, Content.ids, List.append_nil, List.nodup_cons]
  exact ⟨fun m => Nat.lt_irrefl _ (h.below _ m), h.distinct⟩

theorem numbered_ofOutline {identity : TreeId} {source : String} {n : OutlineNode}
    (h : ofOutline identity source n = .ok t) : t.Numbered := by
  unfold ofOutline at h
  cases hc : n.check source with
  | error e => simp [hc, bind, Except.bind] at h
  | ok u =>
    simp only [hc, bind, Except.bind, pure, Except.pure, Except.ok.injEq] at h
    obtain ⟨-, distinct, range⟩ := Content.numbered_ofOutline n.span.start n.span.stop
      (Text.splitBytes n.span.start source.toList).2 0 n.children
    subst h
    exact ⟨distinct, fun id hid => (range id hid).2⟩

theorem numbered_ofEvents {identity : TreeId} {events : List Event}
    (h : ofEvents identity events = .ok t) : t.Numbered := by
  obtain ⟨root, built, grown⟩ := Building.tree_eq_ok_iff.1 h
  rcases Nat.lt_or_ge (Building.empty.run events).offset (2 ^ 32) with short | long
  · rw [Building.grown_of_lt short] at grown
    obtain rfl := Except.ok.inj grown
    exact built.numbered
  · rw [Building.grown_of_le long] at grown
    exact numbered_ofOutline grown

/-- A change that only drops identities keeps them distinct. -/
theorem Numbered.alter (h : t.Numbered) {f : Content → Content}
    (hf : ∀ c, (f c).ids.Sublist c.ids) (target : NodeId) : (t.alter target f).Numbered := by
  have keep : ∀ {c : Content}, c.ids.Sublist t.root.body.ids →
      Node.Numbered { t.root with body := c } :=
    fun sub => ⟨h.distinct.sublist sub, fun id hid => h.below id (sub.subset hid)⟩
  rw [Tree.alter]
  split
  · exact keep (hf _)
  · exact keep (Content.ids_alter_sublist hf)

theorem content_alter (target : NodeId) (f : Content → Content) :
    (t.alter target f).content = t.content.alter target f := by
  rw [Tree.alter]
  split
  · rename_i h; simp [content, Content.alter, h]
  · rename_i h; simp [content, Content.alter, h]

end Tree

end SyntaxLint
