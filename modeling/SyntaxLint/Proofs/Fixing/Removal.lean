import SyntaxLint.Proofs.Fixing.Rename
import SyntaxLint.Proofs.Tree.Children
import SyntaxLint.Proofs.Tree.Refit

/-!
# Proofs — Fixing — removing a value

A binding that is given a value has its name first and the value last.  The fix that removes the
value removes everything behind the name, and formatting what is left changes nothing: there is no
white space below the name.

* `Node.Binds`: a binding by a name, with what stands behind the name.
* `Content.bare`: what is left of its content.
* `Fix.apply_removeValue`: what the fix makes of the tree.
-/

namespace SyntaxLint

/-- The run with its first node alone. -/
def Content.bare : Content → Content
  | .tail s => .tail s
  | .node gap id kind body _ => .node gap id kind body (.tail "")

/-- A binding by a name that comes first, and the nodes behind it. -/
structure Node.Binds (b : Node) (name : String) (rest : List Node) : Prop where
  kind : b.kind = .propertyBinding
  body : ∃ id, b.body = Content.ofNodes (⟨id, .attributeName, .tail name⟩ :: rest)
  apart : ∀ m ∈ (Content.ofNodes rest).members, m.kind ≠ .attributeName

/-- What a value is given by: the value comes last and is the only one. -/
def GivesValue (rest : List Node) : Prop :=
  ∃ mid v, rest = mid ++ [v] ∧ v.kind = .attributeValue ∧ ∀ m ∈ mid, m.kind ≠ .attributeValue

namespace Content

variable {c : Content} {h : Node → Option String} {n x v : Node} {ns mid : List Node}

theorem bare_ofNodes (n : Node) (ns : List Node) : (ofNodes (n :: ns)).bare = ofNodes [n] := rfl

/-- New texts below what is left are what is left of new texts. -/
theorem bare_retext (h : Node → Option String) (c : Content) :
    (c.retext h).bare = c.bare.retext h := by
  cases c <;> rfl

theorem ids_bare_sublist (c : Content) : c.bare.ids.Sublist c.ids := by
  cases c with
  | tail s => exact List.Sublist.refl _
  | node gap id kind body next =>
    exact ((List.Sublist.refl body.ids).append (List.nil_sublist next.ids)).cons_cons id

theorem members_bare_subset (c : Content) : c.bare.members ⊆ c.members := by
  cases c with
  | tail s => exact List.Subset.refl _
  | node gap id kind body next =>
    intro m hm
    simp only [bare, members, List.append_nil] at hm ⊢
    exact List.mem_append_left _ hm

theorem width_bare_le (c : Content) : c.bare.width ≤ c.width := by
  cases c with
  | tail s => exact Nat.le_refl _
  | node gap id kind body next =>
    simp only [bare, width, String.utf8ByteSize_empty]
    omega

theorem map_id_nodes_sublist (c : Content) : (c.nodes.map (·.id)).Sublist c.ids := by
  induction c with
  | tail s => exact List.Sublist.refl _
  | node gap id kind body next _ ihn =>
    exact (ihn.trans (List.sublist_append_right body.ids next.ids)).cons_cons id

/-! ### Removed children -/

/-- What a change does is what it does to the content of the node that is changed. -/
theorem alter_congr {f f' : Content → Content} {target : NodeId}
    (same : ∀ n ∈ c.members, n.id = target → f n.body = f' n.body) :
    c.alter target f = c.alter target f' := by
  induction c with
  | tail s => rfl
  | node gap id kind body next ihb ihn =>
    simp only [members, List.cons_append, List.mem_cons, List.mem_append] at same
    rw [alter, alter]
    by_cases e : id = target
    · rw [if_pos e, if_pos e, same _ (.inl rfl) e]
    · rw [if_neg e, if_neg e, ihb fun n hn => same n (.inr (.inl hn)),
        ihn fun n hn => same n (.inr (.inr hn))]

theorem after_ofNodes (apart : ∀ m ∈ mid, m.id ≠ v.id) :
    (ofNodes (mid ++ [v])).after v.id = .tail "" := by
  induction mid with
  | nil => simp [ofNodes, after]
  | cons m mid ih =>
    rw [List.cons_append, ofNodes, after, if_neg (apart m List.mem_cons_self)]
    exact ih fun k hk => apart k (List.mem_cons_of_mem m hk)

/-- All nodes but the first are cut. -/
theorem cut_ofNodes {more : List Node} (split : x :: more = mid ++ [v])
    (distinct : ((n :: x :: more).map (·.id)).Nodup) :
    (ofNodes (n :: x :: more)).cut x.id v.id = ofNodes [n] := by
  obtain ⟨out, distinct⟩ := List.nodup_cons.1 distinct
  have ne : n.id ≠ x.id := fun e => out (by simp [e])
  have apart : ∀ m ∈ mid, m.id ≠ v.id := by
    rw [split, List.map_append] at distinct
    exact fun m hm => (List.nodup_append.1 distinct).2.2 _ (List.mem_map_of_mem hm) _ (by simp)
  have all : (ofNodes (x :: more)).after v.id = .tail "" := split ▸ after_ofNodes apart
  rw [ofNodes] at all
  rw [ofNodes, ofNodes, cut, if_neg ne, cut, if_pos rfl, all]
  rfl

end Content

/-! ### Bindings -/

namespace Node.Binds

variable {b : Node} {name trigger : String} {rest : List Node} {h : Node → Option String}
  {space : String → Option String}

/-- The first child is the only name. -/
theorem exists_name (hb : b.Binds name rest) : ∃ m, b.body.child? .attributeName = some m ∧
    m.body = .tail name ∧ ∀ n ∈ b.body.members, n.kind = .attributeName → n = m := by
  obtain ⟨id, body⟩ := hb.body
  refine ⟨⟨id, .attributeName, .tail name⟩, ?_, rfl, fun n hn kind => ?_⟩
  · rw [body, Content.child?_ofNodes]
    rfl
  · rw [body, Content.ofNodes, Content.members] at hn
    rcases List.mem_cons.1 hn with rfl | hn
    · rfl
    · exact absurd kind (hb.apart n hn)

theorem triggers (hb : b.Binds ("@" ++ trigger) rest) : b.Triggers trigger := by
  obtain ⟨m, named, body, only⟩ := hb.exists_name
  exact ⟨hb.kind, m, named, by rw [body, Content.text_tail], only⟩

/-- What is left without what stands behind the name. -/
theorem bare (hb : b.Binds name rest) : Node.Binds { b with body := b.body.bare } name [] := by
  obtain ⟨id, body⟩ := hb.body
  exact ⟨hb.kind, ⟨id, by rw [body]; rfl⟩, by simp [Content.ofNodes, Content.members]⟩

/-- In brackets, with its blanks rewritten. -/
theorem retext (hb : b.Binds name rest) (space : String → Option String) :
    Node.Binds { b with body := b.body.retext (Node.change space) } ("[" ++ name ++ "]")
      (rest.map (Node.retext (Node.change space))) := by
  obtain ⟨id, body⟩ := hb.body
  refine ⟨hb.kind, ⟨id, ?_⟩, fun m hm => ?_⟩
  · rw [body, Content.retext_ofNodes, List.map_cons, Node.retext_leaf]
    simp [Node.change]
  · rw [← Content.retext_ofNodes] at hm
    obtain ⟨m', hm', same⟩ := Content.exists_member_of_retext hm
    exact same ▸ hb.apart m' hm'

end Node.Binds

theorem GivesValue.retext {rest : List Node} (hv : GivesValue rest) (h : Node → Option String) :
    GivesValue (rest.map (Node.retext h)) := by
  obtain ⟨mid, v, rfl, kind, before⟩ := hv
  refine ⟨mid.map (Node.retext h), v.retext h, by simp, kind, ?_⟩
  simpa using before

/-! ### The fix -/

variable {t : Tree} {b : Placed} {name : String} {rest : List Node} {anchor : Anchor}
  {format : Formatter} {space : String → Option String}

/-- The edit that removes a value: from the node behind the name to the value. -/
theorem Fix.edit?_removeValue (ht : t.Numbered) (hb : b ∈ t.nodes) (binds : b.Binds name rest)
    (value : GivesValue rest) : ∃ x more mid v, rest = x :: more ∧ rest = mid ++ [v] ∧
      Fix.removeValue.edit? t b = .ok (some (.remove b.id x.id v.id)) := by
  obtain ⟨mid, v, split, kind, before⟩ := value
  obtain ⟨x, more, first⟩ : ∃ x more, rest = x :: more :=
    List.exists_cons_of_ne_nil (by simp [split])
  obtain ⟨id, body⟩ := binds.body
  have nodes : b.children.map (·.toNode) = ⟨id, .attributeName, .tail name⟩ :: rest := by
    rw [Placed.map_toNode_children, body, Content.nodes_ofNodes]
  obtain ⟨p, others, children, named, behind⟩ := List.map_eq_cons_iff.1 nodes
  have found : b.child? .attributeName = some p := by
    rw [Placed.child?, children, List.find?_cons_of_pos (by simp [named])]
  have valued : ∃ w, b.child? .attributeValue = some w ∧ w.toNode = v := by
    refine Placed.exists_child? ?_
    have none : mid.find? (·.kind == .attributeValue) = none :=
      List.find?_eq_none.2 fun m hm => by simpa using before m hm
    rw [body, Content.child?_ofNodes, List.find?_cons_of_neg (by simp), split, List.find?_append,
      none]
    simp [kind]
  obtain ⟨w, valued, rfl⟩ := valued
  obtain ⟨q, qs, rfl, rfl, -⟩ := List.map_eq_cons_iff.1 (behind.trans first)
  have next : t.next? p = some q := by
    have parent : t.parent? p = some b := ht.parent?_of_mem_children hb (by simp [children])
    simp [Tree.next?, Tree.index?, Tree.siblings, parent, children, List.findIdx?_cons]
  refine ⟨q.toNode, more, mid, w.toNode, first, split, ?_⟩
  simp [edit?, required, Placed.required, found, valued, next, bind, Except.bind, pure,
    Except.pure]

/-- **Removing a value** leaves the binding with its name alone. -/
theorem Tree.Numbered.tryEdit_removeValue (ht : t.Numbered) (hb : b ∈ t.nodes)
    (binds : b.Binds name rest) {x v : Node} {more mid : List Node} (first : rest = x :: more)
    (last : rest = mid ++ [v]) : ∃ s, t.tryEdit (.remove b.id x.id v.id) =
      ⟨.ok s, t.alter b.id Content.bare⟩ := by
  obtain ⟨id, body⟩ := binds.body
  have nodes : b.children.map (·.toNode) = ⟨id, .attributeName, .tail name⟩ :: rest := by
    rw [Placed.map_toNode_children, body, Content.nodes_ofNodes]
  have distinct : (id :: rest.map (·.id)).Nodup := by
    have all := (List.nodup_cons.1 (Content.nodup_of_mem ht.nodup hb)).2
    have some := all.sublist (Content.map_id_nodes_sublist b.body)
    rwa [body, Content.nodes_ofNodes, List.map_cons] at some
  obtain ⟨p, others, children, named, behind⟩ := List.map_eq_cons_iff.1 nodes
  have out : ∀ n ∈ rest, p.id ≠ n.id := by
    intro n hn e
    refine (List.nodup_cons.1 distinct).1 ?_
    have mem := List.mem_map_of_mem (f := fun n : Node => n.id) hn
    rwa [← e, named] at mem
  -- a node behind the name is alive, and its place is not the first
  have place : ∀ n ∈ rest, ∃ q k, t.node? n.id = some q ∧
      others.findIdx? (·.id == n.id) = some k ∧
        b.children.findIdx? (·.id == n.id) = some (k + 1) := by
    intro n hn
    obtain ⟨q, hq, rfl⟩ := List.mem_map.1 (behind ▸ hn)
    have mem : q ∈ t.nodes := Tree.mem_nodes_of_mem_children hb (by simp [children, hq])
    have apart : (p.id == q.id) = false := by simpa using out q.toNode hn
    obtain ⟨k, found⟩ : ∃ k, others.findIdx? (·.id == q.id) = some k :=
      Option.isSome_iff_exists.1 (by simpa using ⟨q, hq, rfl⟩)
    exact ⟨q, k, ht.node?_id mem, found, by simp [children, List.findIdx?_cons, apart, found]⟩
  obtain ⟨q, qs, rfl, rfl, -⟩ := List.map_eq_cons_iff.1 (behind.trans first)
  obtain ⟨x', i, hx, start, hi⟩ := place q.toNode (by simp [first])
  obtain ⟨v', j, hv, -, hj⟩ := place v (by simp [last])
  obtain rfl : 0 = i := by simpa [List.findIdx?_cons] using start
  have same : t.alter b.id (·.cut q.id v.id) = t.alter b.id Content.bare := by
    refine eq_of_content ?_ ?_
    · rw [content_alter, content_alter]
      refine Content.alter_congr fun n hn e => ?_
      rw [ht.eq_of_mem_members hn (toNode_mem hb) e, body, Content.bare_ofNodes, first]
      exact Content.cut_ofNodes (first.symm.trans last) (by simpa [first] using distinct)
    · rw [Tree.alter, Tree.alter]
      split <;> rfl
  refine ⟨⟨x'.span.start, v'.span.stop⟩, ?_⟩
  have removed := removeRange_eq_ok_iff.2 ⟨b, x', v', 0 + 1, j + 1, ht.node?_id hb, hx, hv, hi, hj,
    by omega, rfl, rfl⟩
  rw [same] at removed
  simp only [Tree.tryEdit, Tree.edit, removed]

/-! ### Formatting -/

/-- Where nothing below a node is white space, formatting it changes nothing. -/
theorem Formatter.Spaces.eq_of_none (hf : format.Spaces space) (ht : t.Regular)
    (short : t.source.utf8ByteSize < 2 ^ 32) (hb : b ∈ t.nodes) (kind : b.kind ≠ .whitespace)
    (none : ∀ m ∈ b.body.members, m.kind ≠ .whitespace) : format t b.span = ⟨t, []⟩ := by
  rw [hf t b ht short hb kind, Tree.retext_of_none]
  intro n hn
  refine if_neg fun h => none n ?_ h.1
  exact ht.numbered.mem_members_below hb hn h.2

/-- A tree stays regular when nodes that are neither names nor blanks are given contents in which
names and blanks are as they should be. -/
theorem Tree.Regular.refit {g : Node → Option Content} (ht : t.Regular) (hg : Content.Shrinks g)
    (frame : ∀ n ∈ t.content.members, (g n).isSome →
      n.kind ≠ .attributeName ∧ n.kind ≠ .whitespace)
    (inside : ∀ n ∈ t.content.members, ∀ x, g n = some x → ∀ m ∈ x.members,
      (m.kind = .attributeName → m.body.isLeaf = true) ∧
        (m.kind = .whitespace → m.body.isLeaf = true ∧ m.body.text ≠ "")) :
    (t.refit g).Regular := by
  have kept : ∀ m ∈ (t.refit g).content.members, m.kind = .attributeName ∨ m.kind = .whitespace →
      m ∈ t.content.members ∨ ∃ n ∈ t.content.members, ∃ x, g n = some x ∧ m ∈ x.members := by
    intro m hm kind
    refine (Content.eq_or_mem_of_members_refit hm).imp_left ?_
    rintro ⟨n, hn, rfl⟩
    have none : g n = none := by
      refine Option.not_isSome_iff_eq_none.1 fun some => ?_
      exact kind.elim (frame n hn some).1 (frame n hn some).2
    have leaf : n.body.isLeaf = true :=
      kind.elim (ht.name n hn) fun blank => (ht.blank n hn blank).1
    rwa [Node.refit_of_isLeaf leaf none]
  refine ⟨ht.numbered.refit hg, fun m hm kind => ?_, fun m hm kind => ?_⟩
  · rcases kept m hm (.inl kind) with mem | ⟨n, hn, x, new, mem⟩
    · exact ht.name m mem kind
    · exact (inside n hn x new m mem).1 kind
  · rcases kept m hm (.inr kind) with mem | ⟨n, hn, x, new, mem⟩
    · exact ht.blank m mem kind
    · exact (inside n hn x new m mem).2 kind

/-- The source becomes no longer when a binding is left with its name alone. -/
theorem Tree.Numbered.length_alter_bare_le (ht : t.Numbered) (hb : b ∈ t.nodes) :
    (t.alter b.id Content.bare).source.utf8ByteSize ≤ t.source.utf8ByteSize := by
  have width := Content.width_alter ht.nodup hb Content.bare
  have shorter := b.body.width_bare_le
  rw [source, source, ← Content.width_eq, ← Content.width_eq, content_alter]
  omega

/-- A tree stays regular when a binding is left with its name alone. -/
theorem Tree.Regular.alter_bare (ht : t.Regular) (hb : b ∈ t.nodes)
    (kind : b.kind = .propertyBinding) : (t.alter b.id Content.bare).Regular := by
  rw [Tree.alter_eq_refit ht.numbered]
  have only : ∀ n ∈ t.content.members, ∀ x,
      (if n.id = b.id then some n.body.bare else none) = some x →
        n = b.toNode ∧ x = n.body.bare := by
    intro n hn x new
    split at new
    · exact ⟨ht.numbered.eq_of_mem_members hn (Tree.toNode_mem hb) ‹_›, (Option.some.inj new).symm⟩
    · simp at new
  refine ht.refit (fun n x new => ?_) (fun n hn some => ?_) fun n hn x new m hm => ?_
  · split at new
    · rw [← Option.some.inj new]
      exact Content.ids_bare_sublist n.body
    · simp at new
  · obtain ⟨x, new⟩ := Option.isSome_iff_exists.1 some
    rw [(only n hn x new).1, kind]
    simp
  · obtain ⟨rfl, rfl⟩ := only n hn x new
    have mem := Tree.members_subset hb (Content.members_bare_subset _ hm)
    exact ⟨ht.name m mem, ht.blank m mem⟩

/-- **The fix that removes a value** leaves the binding with its name alone. -/
theorem Fix.apply_removeValue (hf : format.Spaces space) (ht : t.Regular)
    (short : t.source.utf8ByteSize < 2 ^ 32) (hb : b ∈ t.nodes) (binds : b.Binds name rest)
    (value : GivesValue rest) (tree : anchor.tree = t.identity)
    (target : anchor.target = some b.id) :
    ∃ span range, Fix.removeValue.apply format t anchor =
      ⟨.ok (.applied span), t.alter b.id Content.bare, [range], []⟩ := by
  have resolved := Anchor.resolve_eq ht.numbered hb (by simp [binds.kind, Kind.isAttribute])
    tree target
  obtain ⟨x, more, mid, v, first, last, edit⟩ :=
    edit?_removeValue (t := t) ht.numbered hb binds value
  obtain ⟨s, removed⟩ := ht.numbered.tryEdit_removeValue hb binds first last
  -- the binding after the edit, of which the formatter is told the range
  have regular := ht.alter_bare hb binds.kind
  have here := Content.changed_mem_alter (f := Content.bare) ht.numbered.nodup hb
  rw [← Tree.content_alter] at here
  have range : Session.rangeOf t (t.alter b.id Content.bare) b.id =
      Placed.span { b with body := b.body.bare } := by
    rw [Session.rangeOf, regular.numbered.node?_eq_some_iff.2 ⟨here, rfl⟩]
  have shorter := (ht.numbered.length_alter_bare_le hb).trans_lt short
  have formatted := hf.eq_of_none regular shorter here (by simp [binds.kind]) fun m hm => by
    obtain ⟨id, body⟩ := binds.bare.body
    rw [body] at hm
    obtain rfl : m = ⟨id, .attributeName, .tail name⟩ := by
      simpa [Content.ofNodes, Content.members] using hm
    simp
  refine ⟨.emptyAt s.start, Placed.span { b with body := b.body.bare }, ?_⟩
  simp only [apply, resolved, edit, bind, Except.bind, pure, Except.pure, removed, Session.close,
    range, formatted, changed]

/-- Without a value there is nothing to remove. -/
theorem Fix.apply_removeValue_bare (ht : t.Numbered) (hb : b ∈ t.nodes) (binds : b.Binds name [])
    (tree : anchor.tree = t.identity) (target : anchor.target = some b.id) :
    Fix.removeValue.apply format t anchor = ⟨.ok .unchanged, t, [], []⟩ := by
  have resolved := Anchor.resolve_eq ht hb (by simp [binds.kind, Kind.isAttribute]) tree target
  have valued : b.child? .attributeValue = none := by
    obtain ⟨id, body⟩ := binds.body
    have nodes := b.map_toNode_child? .attributeValue
    rw [body, Content.child?_ofNodes] at nodes
    simpa using nodes
  simp [apply, resolved, edit?, valued, bind, Except.bind, pure, Except.pure]

/-- A name in brackets is not renamed again. -/
theorem Fix.apply_rename_renamed {trigger : String} (ht : t.Numbered) (hb : b ∈ t.nodes)
    (binds : b.Binds (bindingForm trigger) rest)
    (tree : anchor.tree = t.identity) (target : anchor.target = some b.id) :
    (Fix.rename trigger).apply format t anchor = ⟨.ok .unchanged, t, [], []⟩ := by
  have resolved := Anchor.resolve_eq ht hb (by simp [binds.kind, Kind.isAttribute]) tree target
  obtain ⟨m, named, body, -⟩ := binds.exists_name
  obtain ⟨q, found, rfl⟩ := Placed.exists_child? named
  have text : q.text = bindingForm trigger := by rw [Placed.text, body, Content.text_tail]
  simp [apply, resolved, edit?, required, Placed.required, found, text, bind, Except.bind, pure,
    Except.pure]

end SyntaxLint
