import SyntaxLint.Proofs.Template.Lossless

/-!
# Proofs — Templates — reported bindings

The bindings of a template that are reported stand apart: none is below another.  Rebinding the
tree gives new texts to leaves below them and to nothing else, and leaves none to report.

* `Content.reported`, `Content.apart_reported`: the reported bindings, each apart from the others.
* `Content.retext_reported`: rebinding as new texts for leaves.
* `Content.reported_rebind`: nothing is reported after it.
-/

namespace SyntaxLint

open Template

variable {space : String → Option String} {c : Content} {n m b : Node}

/-- The reported bindings of a run, in order. -/
def Content.reported (c : Content) : List Node := c.members.filter (·.isReported)

/-- The new text of a node below one of the given bindings, when these are rebound. -/
def Node.changeBelow (space : String → Option String) (bs : List Node) (n : Node) :
    Option String :=
  if ∃ b ∈ bs, n.id ∈ b.body.ids then n.change space else none

theorem Content.mem_members_of_child? {kind : Kind} (h : c.child? kind = some m) :
    m ∈ c.members ∧ m.kind = kind := by
  induction c with
  | tail s => simp [child?] at h
  | node gap id k body next _ ihn =>
    rw [child?] at h
    split at h
    · rename_i e
      obtain rfl : Node.mk id k body = m := by simpa using h
      exact ⟨List.mem_cons_self, e⟩
    · obtain ⟨mem, same⟩ := ihn h
      exact ⟨List.mem_append_right _ mem, same⟩

theorem Content.reported_node (gap : String) (id : NodeId) (kind : Kind) (body next : Content) :
    (node gap id kind body next).reported =
      (if (Node.mk id kind body).isReported then [⟨id, kind, body⟩] else []) ++
        (body.reported ++ next.reported) := by
  simp only [reported, members, List.cons_append, List.filter_cons, List.filter_append]
  split <;> rfl

theorem Content.mem_members_of_mem_reported (h : b ∈ c.reported) : b ∈ c.members :=
  (List.mem_filter.1 h).1

theorem Content.ids_subset_of_mem_members (h : b ∈ c.members) : b.body.ids ⊆ c.ids := by
  obtain ⟨p, hp, rfl⟩ := exists_mem_preorder_of_mem_members h 0 none
  exact ids_subset_of_mem hp

/-! ### New texts for leaves -/

theorem Node.changeBelow_congr {bs bs' : List Node}
    (same : (∃ b ∈ bs, n.id ∈ b.body.ids) ↔ ∃ b ∈ bs', n.id ∈ b.body.ids) :
    n.changeBelow space bs = n.changeBelow space bs' := by
  simp only [changeBelow, same]

/-- **Rebinding gives new texts to nodes below reported bindings**, and to nothing else. -/
theorem Content.retext_reported (hd : c.ids.Nodup) :
    c.retext (Node.changeBelow space c.reported) = c.rebind space := by
  induction c with
  | tail s => rfl
  | node gap id kind body next ihb ihn =>
    obtain ⟨idb, idn, hb, hx, apart⟩ := nodup_node hd
    have inBody : ∀ x, (∃ b ∈ body.reported, x ∈ b.body.ids) → x ∈ body.ids :=
      fun x ⟨b, hb, hx⟩ => ids_subset_of_mem_members (mem_members_of_mem_reported hb) hx
    have inNext : ∀ x, (∃ b ∈ next.reported, x ∈ b.body.ids) → x ∈ next.ids :=
      fun x ⟨b, hb, hx⟩ => ids_subset_of_mem_members (mem_members_of_mem_reported hb) hx
    -- below which reported binding a node stands is told by its identity alone
    have split : ∀ x, (∃ b ∈ (node gap id kind body next).reported, x ∈ b.body.ids) ↔
        ((Node.mk id kind body).isReported = true ∧ x ∈ body.ids) ∨
          (∃ b ∈ body.reported, x ∈ b.body.ids) ∨ ∃ b ∈ next.reported, x ∈ b.body.ids := by
      intro x
      rw [reported_node]
      cases (Node.mk id kind body).isReported <;> simp [or_and_right, exists_or]
    have here : (Node.mk id kind body).changeBelow space (node gap id kind body next).reported =
        none := by
      refine if_neg fun h => ?_
      rcases (split id).1 h with ⟨-, h⟩ | h | h
      · exact idb h
      · exact idb (inBody id h)
      · exact idn (inNext id h)
    have beside : next.retext (Node.changeBelow space (node gap id kind body next).reported) =
        next.rebind space := by
      rw [← ihn hx]
      refine retext_congr fun m hm => Node.changeBelow_congr ((split m.id).trans ?_)
      have out : m.id ∉ body.ids := fun h => apart _ h (id_mem_of_mem_members hm)
      refine ⟨?_, fun h => .inr (.inr h)⟩
      rintro (⟨-, h⟩ | h | h)
      · exact absurd h out
      · exact absurd (inBody _ h) out
      · exact h
    have below : body.retext (Node.changeBelow space (node gap id kind body next).reported) =
        if (Node.mk id kind body).isReported then body.retext (Node.change space)
        else body.rebind space := by
      split
      · rename_i reported
        refine retext_congr fun m hm => if_pos ((split m.id).2 (.inl ⟨reported, ?_⟩))
        exact id_mem_of_mem_members hm
      · rename_i reported
        rw [← ihb hb]
        refine retext_congr fun m hm => Node.changeBelow_congr ((split m.id).trans ?_)
        refine ⟨?_, fun h => .inr (.inl h)⟩
        rintro (⟨h, -⟩ | h | h)
        · exact absurd h reported
        · exact h
        · exact absurd (inNext _ h) fun h => apart _ (id_mem_of_mem_members hm) h
    rw [retext, rebind, here, beside, below]
    rfl

/-! ### Bindings apart -/

/-- No binding stands below another. -/
theorem Template.Shaped.below (hs : Shaped n) (kind : n.kind = .propertyBinding)
    (hm : m ∈ n.body.members) : m.kind ≠ .propertyBinding := by
  obtain ⟨a, free, rfl⟩ := hs.binding kind
  rcases a.members_node free hm with rfl | inner
  · simp
  · exact inner.binding

theorem Node.kind_of_isReported (h : n.isReported = true) : n.kind = .propertyBinding := by
  by_contra ne
  simp [isReported_of_kind ne] at h

theorem Content.reported_eq_nil (h : ∀ m ∈ c.members, m.kind ≠ .propertyBinding) :
    c.reported = [] :=
  List.filter_eq_nil_iff.2 fun m hm => by simp [Node.isReported_of_kind (h m hm)]

/-- Two nodes of which none is the other or below it. -/
def Node.Apart (b b' : Node) : Prop := ∀ id ∈ b.id :: b.body.ids, id ∉ b'.id :: b'.body.ids

theorem Node.Apart.symm {b b' : Node} (h : b.Apart b') : b'.Apart b :=
  fun id hid hid' => h id hid' hid

/-- **The reported bindings of a template stand apart.** -/
theorem Content.apart_reported (hd : c.ids.Nodup) (hs : ∀ n ∈ c.members, Shaped n) :
    c.reported.Pairwise Node.Apart := by
  induction c with
  | tail s => exact List.Pairwise.nil
  | node gap id kind body next ihb ihn =>
    obtain ⟨idb, idn, hb, hx, apart⟩ := nodup_node hd
    simp only [members, List.cons_append, List.mem_cons, List.mem_append] at hs
    have inside : ∀ {c : Content} {b : Node}, b ∈ c.reported → ∀ x ∈ b.id :: b.body.ids,
        x ∈ c.ids := by
      intro c b hb x hx
      have mem := mem_members_of_mem_reported hb
      rcases List.mem_cons.1 hx with rfl | hx
      · exact id_mem_of_mem_members mem
      · exact ids_subset_of_mem_members mem hx
    have rest : (body.reported ++ next.reported).Pairwise Node.Apart := by
      refine List.pairwise_append.2 ⟨ihb hb fun n hn => hs n (.inr (.inl hn)),
        ihn hx fun n hn => hs n (.inr (.inr hn)), fun b hb b' hb' x hx hx' => ?_⟩
      exact apart x (inside hb x hx) (inside hb' x hx')
    rw [reported_node]
    split
    · rename_i reported
      have kind := Node.kind_of_isReported reported
      have empty : body.reported = [] :=
        reported_eq_nil fun m hm => (hs _ (.inl rfl)).below kind hm
      refine List.pairwise_cons.2 ⟨fun b hb x hx hx' => ?_, rest⟩
      rw [empty, List.nil_append] at hb
      have mem := inside hb x hx'
      rcases List.mem_cons.1 hx with rfl | hx
      · exact idn mem
      · exact apart x hx mem
    · exact rest

/-! ### Nothing left to report -/

theorem Template.Attribute.isAssignedTrigger_rebind {squeeze : List Char → List Char}
    (a : Attribute) : (a.rebind squeeze).isAssignedTrigger = false := by
  rw [rebind]
  split
  · simp [isAssignedTrigger, AttributeName.isTrigger]
  · rename_i not
    simpa using not

theorem Content.exists_member_of_retext {h : Node → Option String}
    (hm : m ∈ (c.retext h).members) : ∃ m' ∈ c.members, m'.kind = m.kind := by
  induction c with
  | tail s => simp [retext, members] at hm
  | node gap id kind body next ihb ihn =>
    simp only [retext, members, List.cons_append, List.mem_cons, List.mem_append] at hm ⊢
    rcases hm with rfl | hm | hm
    · exact ⟨_, .inl rfl, rfl⟩
    · cases e : h ⟨id, kind, body⟩ with
      | none =>
        obtain ⟨m', hm', same⟩ := ihb (by simpa [e] using hm)
        exact ⟨m', .inr (.inl hm'), same⟩
      | some x => simp [e, members] at hm
    · obtain ⟨m', hm', same⟩ := ihn hm
      exact ⟨m', .inr (.inr hm'), same⟩

/-- A rebound node is not reported. -/
theorem Template.Shaped.isReported_rebind (h : OneSpace space) (hs : Shaped n) :
    (n.rebind space).isReported = false := by
  by_cases kind : n.kind = .propertyBinding
  · obtain ⟨a, free, rfl⟩ := hs.binding kind
    rw [← (a.node_rebind h free).1, Attribute.isReported_node]
    exact a.isAssignedTrigger_rebind
  · exact Node.isReported_of_kind kind

/-- **Nothing is left to report** where all reported bindings are rebound. -/
theorem Content.reported_rebind (h : OneSpace space) (hs : ∀ n ∈ c.members, Shaped n) :
    (c.rebind space).reported = [] := by
  induction c with
  | tail s => rfl
  | node gap id kind body next ihb ihn =>
    simp only [members, List.cons_append, List.mem_cons, List.mem_append] at hs
    have shaped := hs ⟨id, kind, body⟩ (.inl rfl)
    have here := shaped.isReported_rebind h
    rw [Node.rebind] at here
    have below : (if (Node.mk id kind body).isReported then body.retext (Node.change space)
        else body.rebind space).reported = [] := by
      split
      · rename_i reported
        refine reported_eq_nil fun m hm => ?_
        obtain ⟨m', hm', same⟩ := exists_member_of_retext hm
        exact same ▸ shaped.below (Node.kind_of_isReported reported) hm'
      · exact ihb fun n hn => hs n (.inr (.inl hn))
    rw [rebind, reported_node, here, below, ihn fun n hn => hs n (.inr (.inr hn))]
    rfl

end SyntaxLint
