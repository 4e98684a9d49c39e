import SyntaxLint.Proofs.Fixing.Reachable
import SyntaxLint.Proofs.Fixing.Rename
import SyntaxLint.Proofs.Tree.Keeping
import SyntaxLint.Proofs.Tree.Navigation

/-!
# Proofs — Fixing — what becomes of a fix

A fix that is stale, meets a node without its name, or finds its work done leaves the tree as it is
and formats nothing.  Any other fix makes one edit and formats once: the range that its target has
by then, in the tree with the edit, or in the tree as it was if the edit is refused.

* `Fix.Makes`: the one edit of a fix, and what it does.
* `Fix.Does`, `Fix.does`: what a fix does, case by case.
* `Fix.obeys_of_reachable`: every fix, at every anchor of every tree there is, with any formatter.
-/

namespace SyntaxLint

namespace Tree

variable {t u : Tree} {b n x y : Placed}

/-! ### Children of a live node -/

/-- The text of a live node is replaced unless it has children or the source would be too long. -/
theorem Numbered.replaceText_ne_unknownNode (h : t.Numbered) (hn : n ∈ t.nodes) (text : String) :
    t.replaceText n.id text ≠ .error .unknownNode := by
  simp only [Tree.replaceText, live, h.node?_id hn, bind, Except.bind]
  split
  · simp [throw, throwThe, MonadExceptOf.throw]
  · split <;> simp [pure, Except.pure, throw, throwThe, MonadExceptOf.throw]

/-- Children of a live node are removed unless the first named stands behind the last. -/
theorem Numbered.removeRange_ne_unknownNode (h : t.Numbered) (hb : b ∈ t.nodes)
    (hx : x ∈ b.children) (hy : y ∈ b.children) :
    t.removeRange b.id x.id y.id ≠ .error .unknownNode := by
  obtain ⟨i, hi⟩ := List.getElem?_of_mem hx
  obtain ⟨j, hj⟩ := List.getElem?_of_mem hy
  simp only [removeRange, live, childIndex, h.node?_id hb,
    h.node?_id (mem_nodes_of_mem_children hb hx), h.node?_id (mem_nodes_of_mem_children hb hy),
    h.findIdx?_of_getElem? hb hi, h.findIdx?_of_getElem? hb hj, bind, Except.bind]
  split <;> simp [pure, Except.pure, throw, throwThe, MonadExceptOf.throw]

end Tree

/-! ### The edit of a fix -/

variable {t u : Tree} {b n : Placed} {anchor : Anchor} {fix : Fix} {format : Formatter}

/-- The one edit of a fix to a node `b` of `t`, and what it does. -/
inductive Fix.Makes (t : Tree) (b : Placed) (u : Tree) : Fix → Prop where
  /-- the text of the first name becomes `[@trigger]` -/
  | rename {trigger : String} {name : Placed} {s : Span}
      (named : b.child? .attributeName = some name)
      (made : t.replaceText name.id ("[@" ++ trigger ++ "]") = .ok (u, s))
      (spliced : t.Spliced u name [] name.span ("[@" ++ trigger ++ "]"))
      (text : u.LeafText name.id ("[@" ++ trigger ++ "]")) : Makes t b u (.rename trigger)
  /-- the children from the one behind the first name, or else from the first value, to the first
  value are removed -/
  | removeValue {name value first : Placed} {k i j : Nat} {s : Span}
      (named : b.child? .attributeName = some name) (place : b.children[k]? = some name)
      (valued : b.child? .attributeValue = some value)
      (start : first = (b.children[k + 1]?).getD value)
      (made : t.removeRange b.id first.id value.id = .ok (u, s))
      (left : b.children[i]? = some first) (right : b.children[j]? = some value) (order : i ≤ j)
      (spliced : t.Spliced u b (b.subtrees i j) ⟨first.span.start, value.span.stop⟩ "") :
      Makes t b u .removeValue

/-! ### Targets -/

/-- Where every node is kept an anchor resolves to what it resolved to. -/
theorem Anchor.exists_resolve (ht : t.Numbered) (keeps : t.Keeps u)
    (h : anchor.resolve t = .ok b) :
    ∃ b', anchor.resolve u = .ok b' ∧ u.node? b.id = some b' := by
  obtain ⟨tree, found, attr⟩ := resolve_eq_ok_iff.1 h
  obtain ⟨b', found', kin, -⟩ := keeps.found b.id b (ht.node?_id (mem_of_resolve h))
  refine ⟨b', resolve_eq_ok_iff.2 ⟨tree.trans keeps.identity.symm, ?_, kin.kind ▸ attr⟩, found'⟩
  rw [aim?] at found ⊢
  cases target : anchor.target with
  | some id =>
    simp only [target] at found ⊢
    rwa [← (ht.node?_eq_some_iff.1 found).2]
  | none =>
    simp only [target] at found ⊢
    obtain ⟨m, held, parent⟩ := Option.bind_eq_some_iff.1 found
    obtain ⟨id, named, aimed⟩ := Option.bind_eq_some_iff.1 parent
    obtain ⟨m', held', kin', -⟩ := keeps.found _ m held
    rw [held', Option.bind_some, Tree.parent?, kin'.parent, named, Option.bind_some,
      ← (ht.node?_eq_some_iff.1 aimed).2]
    exact found'

/-! ### Cases -/

namespace Fix

/-- A fix that is stale, that ends at a missing child, or that has nothing to do. -/
inductive Quiet : Except FixError FixOutcome → Prop where
  | stale (s : Span) : Quiet (.error (.stale s))
  | malformed (e : MissingChild) : Quiet (.error (.malformed e))
  | unchanged : Quiet (.ok .unchanged)

/-- Giving the name of the target a new text: the edit is made or refused, and the target stays. -/
theorem replace_cases (h : t.Numbered) (hb : b ∈ t.nodes) {name : Placed} (trigger : String)
    (named : b.child? .attributeName = some name) :
    (∃ u s b', t.edit (.replace name.id (bindingForm trigger)) = .ok (u, s) ∧
      (rename trigger).Makes t b u ∧ u.node? b.id = some b' ∧ b.Kin b') ∨
    ∃ fault, t.edit (.replace name.id (bindingForm trigger)) = .error fault ∧
      fault ≠ .unknownNode := by
  have listed := Tree.mem_nodes_of_mem_children hb (Placed.mem_of_child? named)
  have same : t.edit (.replace name.id (bindingForm trigger)) =
      t.replaceText name.id (bindingForm trigger) := rfl
  rw [same]
  cases made : t.replaceText name.id (bindingForm trigger) with
  | error fault =>
    exact .inr ⟨fault, rfl, fun e => h.replaceText_ne_unknownNode listed _ (e ▸ made)⟩
  | ok r =>
    obtain ⟨u, s⟩ := r
    obtain ⟨m, -, found, spliced, -⟩ := h.spliced_replaceText made
    obtain rfl : m = name := Option.some.inj (found.symm.trans (h.node?_id listed))
    obtain ⟨keeps, text, -⟩ := h.keeps_replaceText made
    obtain ⟨b', found', kin, -⟩ := keeps.found b.id b (h.node?_id hb)
    exact .inl ⟨u, s, b', rfl, .rename named made spliced text, found', kin⟩

/-- Removing children of the target: the edit is made or refused, and the target stays. -/
theorem remove_cases (h : t.Numbered) (hb : b ∈ t.nodes) {name value : Placed}
    (named : b.child? .attributeName = some name)
    (valued : b.child? .attributeValue = some value) :
    (∃ u s b', t.edit (.remove b.id ((t.next? name).getD value).id value.id) = .ok (u, s) ∧
      removeValue.Makes t b u ∧ u.node? b.id = some b' ∧ b.Kin b') ∨
    ∃ fault, t.edit (.remove b.id ((t.next? name).getD value).id value.id) = .error fault ∧
      fault ≠ .unknownNode := by
  obtain ⟨k, place⟩ := List.getElem?_of_mem (Placed.mem_of_child? named)
  have last : value ∈ b.children := Placed.mem_of_child? valued
  rw [h.next?_of_getElem? hb place]
  set first := (b.children[k + 1]?).getD value with start
  have among : first ∈ b.children := by
    rw [start]
    cases next : b.children[k + 1]? with
    | none => exact last
    | some m => exact List.mem_of_getElem? next
  have same : t.edit (.remove b.id first.id value.id) = t.removeRange b.id first.id value.id := rfl
  rw [same]
  cases made : t.removeRange b.id first.id value.id with
  | error fault =>
    exact .inr ⟨fault, rfl, fun e => h.removeRange_ne_unknownNode hb among last (e ▸ made)⟩
  | ok r =>
    obtain ⟨u, s⟩ := r
    obtain ⟨p, x, y, i, j, found, order, hx, idx, hy, idy, rfl, spliced⟩ :=
      h.spliced_removeRange made
    obtain rfl : p = b := Option.some.inj (found.symm.trans (h.node?_id hb))
    have child : ∀ {m}, m ∈ p.children → m ∈ t.nodes := fun hm =>
      Tree.mem_nodes_of_mem_children hb hm
    obtain rfl := h.eq_of_id_eq (child (List.mem_of_getElem? hx)) (child among) idx
    obtain rfl := h.eq_of_id_eq (child (List.mem_of_getElem? hy)) (child last) idy
    obtain ⟨-, -, -, -, -, -, -, -, -, -, -, rfl, -⟩ := Tree.removeRange_eq_ok_iff.1 made
    have here := Content.changed_mem_alter (f := (·.cut first.id y.id)) h.nodup hb
    rw [← Tree.content_alter] at here
    have numbered := h.alter (Content.ids_cut_sublist first.id y.id) p.id
    exact .inl ⟨_, _, _, rfl, .removeValue named place valued start made hx hy order spliced,
      numbered.node?_eq_some_iff.2 ⟨here, rfl⟩, ⟨rfl, rfl, rfl⟩⟩

/-- What a fix does that has an edit to make. -/
theorem apply_of_edit {e : Edit} (resolved : anchor.resolve t = .ok b)
    (edit : fix.edit? t b = .ok (some e)) (format : Formatter) :
    (∀ u s b', t.edit e = .ok (u, s) → u.node? b.id = some b' →
      fix.apply format t anchor = ⟨.ok (.applied (fix.changed s)), (format u b'.span).tree,
        [b'.span], (format u b'.span).refused⟩) ∧
    ∀ fault, t.edit e = .error fault → t.node? b.id = some b →
      fix.apply format t anchor = ⟨.error (.tree fault), (format t b.span).tree, [b.span],
        (format t b.span).refused⟩ := by
  constructor
  · intro u s b' made found
    simp [apply, resolved, edit, bind, Except.bind, pure, Except.pure, Tree.tryEdit, made,
      Session.close, Session.rangeOf, found]
  · intro fault refused found
    simp [apply, resolved, edit, bind, Except.bind, pure, Except.pure, Tree.tryEdit, refused,
      Session.close, Session.rangeOf, found]

/-- The three things that a fix can do: nothing, an edit, or an attempt at one that is refused. -/
inductive Does (fix : Fix) (t : Tree) (anchor : Anchor) : Prop where
  | nothing {o : Except FixError FixOutcome} (quiet : Quiet o)
      (done : ∀ format, fix.apply format t anchor = ⟨o, t, [], []⟩)
  | edit {b b' : Placed} {u : Tree} {s : Span} (resolved : anchor.resolve t = .ok b)
      (makes : fix.Makes t b u) (found : u.node? b.id = some b') (kin : b.Kin b')
      (done : ∀ format, fix.apply format t anchor = ⟨.ok (.applied s), (format u b'.span).tree,
        [b'.span], (format u b'.span).refused⟩)
  | refused {b : Placed} {fault : TreeError} (resolved : anchor.resolve t = .ok b)
      (found : t.node? b.id = some b) (alive : fault ≠ .unknownNode)
      (done : ∀ format, fix.apply format t anchor = ⟨.error (.tree fault), (format t b.span).tree,
        [b.span], (format t b.span).refused⟩)

theorem does_of_edit {e : Edit} (h : t.Numbered) (resolved : anchor.resolve t = .ok b)
    (edit : fix.edit? t b = .ok (some e))
    (cases : (∃ u s b', t.edit e = .ok (u, s) ∧ fix.Makes t b u ∧ u.node? b.id = some b' ∧
      b.Kin b') ∨ ∃ fault, t.edit e = .error fault ∧ fault ≠ .unknownNode) :
    fix.Does t anchor := by
  rcases cases with ⟨u, s, b', made, makes, found, kin⟩ | ⟨fault, refused, alive⟩
  · exact .edit resolved makes found kin fun format =>
      (apply_of_edit resolved edit format).1 u s b' made found
  · have found := h.node?_id (Anchor.mem_of_resolve resolved)
    exact .refused resolved found alive fun format =>
      (apply_of_edit resolved edit format).2 fault refused found

theorem does_of_malformed {e : MissingChild} (resolved : anchor.resolve t = .ok b)
    (edit : fix.edit? t b = .error (.malformed e)) : fix.Does t anchor :=
  .nothing (.malformed e) fun format => by simp [apply, resolved, edit, bind, Except.bind]

theorem does_of_unchanged (resolved : anchor.resolve t = .ok b)
    (edit : fix.edit? t b = .ok none) : fix.Does t anchor :=
  .nothing .unchanged fun format => by
    simp [apply, resolved, edit, bind, Except.bind, pure, Except.pure]

/-- **What a fix does**, whatever the formatter. -/
theorem does (h : t.Numbered) (fix : Fix) (anchor : Anchor) : fix.Does t anchor := by
  cases resolved : anchor.resolve t with
  | error e =>
    obtain rfl := Anchor.eq_stale_of_resolve resolved
    exact .nothing (.stale anchor.span) fun format => by
      simp [apply, resolved, bind, Except.bind]
  | ok b =>
    have hb := Anchor.mem_of_resolve resolved
    cases fix with
    | rename trigger =>
      cases named : b.child? .attributeName with
      | none =>
        refine does_of_malformed (e := ⟨b.kind, b.span, .attributeName⟩) resolved ?_
        simp [edit?, required, Placed.required, named, bind, Except.bind]
      | some name =>
        by_cases done : name.text = bindingForm trigger
        · refine does_of_unchanged resolved ?_
          simp [edit?, required, Placed.required, named, done, bind, Except.bind, pure, Except.pure]
        · refine does_of_edit h resolved ?_ (replace_cases h hb trigger named)
          simp [edit?, required, Placed.required, named, done, bind, Except.bind, pure, Except.pure]
    | removeValue =>
      cases valued : b.child? .attributeValue with
      | none => exact does_of_unchanged resolved (by simp [edit?, valued, pure, Except.pure])
      | some value =>
        cases named : b.child? .attributeName with
        | none =>
          refine does_of_malformed (e := ⟨b.kind, b.span, .attributeName⟩) resolved ?_
          simp [edit?, required, Placed.required, valued, named, bind, Except.bind]
        | some name =>
          refine does_of_edit h resolved ?_ (remove_cases h hb named valued)
          simp [edit?, required, Placed.required, valued, named, bind, Except.bind, pure,
            Except.pure]

end Fix

/-! ### Fixing twice -/

/-- Making blanks spaces keeps every node, and the texts of other leaves. -/
theorem Formatter.keeps_foldl_toSpace {id : NodeId} {x : String} (ids : List NodeId)
    (other : id ∉ ids) {f : Formatted} (h : f.tree.Numbered) (leaf : f.tree.LeafText id x) :
    f.tree.Keeps (ids.foldl toSpace f).tree ∧ (ids.foldl toSpace f).tree.LeafText id x := by
  induction ids generalizing f with
  | nil => exact ⟨.refl _, leaf⟩
  | cons j ids ih =>
    obtain ⟨ne, other⟩ := not_or.1 (List.mem_cons.not.1 other)
    have step : (toSpace f j).tree.Numbered ∧ f.tree.Keeps (toSpace f j).tree ∧
        (toSpace f j).tree.LeafText id x := by
      cases done : f.tree.replaceText j " " with
      | error fault =>
        have same : (toSpace f j).tree = f.tree := by simp [toSpace, done]
        rw [same]
        exact ⟨h, .refl _, leaf⟩
      | ok r =>
        obtain ⟨u, s⟩ := r
        have made : (toSpace f j).tree = u := by simp [toSpace, done]
        obtain ⟨keeps, -, others⟩ := h.keeps_replaceText done
        rw [made]
        exact ⟨h.replaceText done, keeps, others id x ne leaf⟩
    obtain ⟨numbered, keeps, leaf⟩ := step
    obtain ⟨keeps', leaf'⟩ := ih other numbered leaf
    exact ⟨keeps.trans keeps', leaf'⟩

/-- The two formatters keep every node, and the texts of leaves that are no blanks. -/
theorem Formatter.keeps_stock (h : t.Numbered) (stock : format = .idle ∨ format = .whitespace)
    (range : Span) {x : String} (hn : n ∈ t.nodes) (kind : n.kind ≠ .whitespace)
    (leaf : t.LeafText n.id x) :
    t.Keeps (format t range).tree ∧ (format t range).tree.LeafText n.id x := by
  rcases stock with rfl | rfl
  · exact ⟨.refl t, leaf⟩
  · refine keeps_foldl_toSpace (targets t range) (fun mem => ?_) (f := ⟨t, []⟩) h leaf
    obtain ⟨m, hm, same⟩ := List.mem_map.1 mem
    obtain ⟨hm, ragged⟩ := List.mem_filter.1 hm
    obtain rfl := h.eq_of_id_eq hm hn same
    simp only [isRagged, Bool.and_eq_true, beq_iff_eq] at ragged
    exact kind ragged.1.1.1

namespace Fix

/-- A rename that is made, with a formatter of the two, leaves its target where the anchor finds it,
under the new name. -/
theorem exists_renamed {trigger : String} (h : t.Numbered) (resolved : anchor.resolve t = .ok b)
    (makes : (rename trigger).Makes t b u) (stock : format = .idle ∨ format = .whitespace)
    (range : Span) :
    ∃ b' m, anchor.resolve (format u range).tree = .ok b' ∧
      (format u range).tree.node? b.id = some b' ∧ b.Kin b' ∧
      b'.child? .attributeName = some m ∧ m.text = bindingForm trigger := by
  obtain ⟨named, made, -, text⟩ := makes
  rename_i name s
  have hb := Anchor.mem_of_resolve resolved
  have hu := h.replaceText made
  have listed := Tree.mem_nodes_of_mem_children hb (Placed.mem_of_child? named)
  obtain ⟨keeps, -⟩ := h.keeps_replaceText made
  -- the name is no blank, so the formatter leaves its text
  obtain ⟨name', found, kin, -⟩ := keeps.found name.id name (h.node?_id listed)
  obtain ⟨listed', same⟩ := hu.node?_eq_some_iff.1 found
  obtain ⟨keeps', leaf⟩ := Formatter.keeps_stock hu stock range listed'
    (by rw [kin.kind, Placed.kind_of_child? named]; decide) (same.symm ▸ text)
  have all := keeps.trans keeps'
  have hw : (format u range).tree.Numbered := by
    rcases stock with rfl | rfl
    · exact hu
    · exact hu.edits (Formatter.whitespace_editsOnly u range)
  -- the target is found, and so is its name
  obtain ⟨b', resolved', found'⟩ := Anchor.exists_resolve h all resolved
  obtain ⟨q, held, kept, -⟩ := all.found b.id b (h.node?_id hb)
  obtain rfl := Option.some.inj (held.symm.trans found')
  have first := all.child? h hw hb found' .attributeName
  rw [named, Option.map_some, Option.map_eq_some_iff] at first
  obtain ⟨m, named', id⟩ := first
  obtain ⟨m', held, -, written⟩ := leaf
  have hm := Tree.mem_nodes_of_mem_children (List.mem_of_find?_eq_some found')
    (Placed.mem_of_child? named')
  rw [same, ← id, hw.node?_id hm] at held
  obtain rfl := Option.some.inj held
  exact ⟨q, m, resolved', found', kept, named', written⟩

/-- A rename that is made, with a formatter of the two, finds its work done the next time. -/
theorem apply_rename_again {trigger : String} (h : t.Numbered)
    (resolved : anchor.resolve t = .ok b) (makes : (rename trigger).Makes t b u)
    (stock : format = .idle ∨ format = .whitespace) (range : Span) (format' : Formatter) :
    (rename trigger).apply format' (format u range).tree anchor =
      ⟨.ok .unchanged, (format u range).tree, [], []⟩ := by
  obtain ⟨b', m, resolved', -, -, named', done⟩ := exists_renamed h resolved makes stock range
  have edit : (rename trigger).edit? (format u range).tree b' = .ok none := by
    simp [edit?, required, Placed.required, named', done, bind, Except.bind, pure, Except.pure]
  simp [apply, resolved', edit, bind, Except.bind, pure, Except.pure]

/-- What a fix of a tree at an anchor does, case by case of its outcome. -/
structure Obeys (fix : Fix) (t : Tree) (anchor : Anchor) : Prop where
  /-- the tree is as before and nothing is formatted -/
  quiet : ∀ format o, (fix.apply format t anchor).outcome = o → Quiet o →
    ∀ format', fix.apply format' t anchor = ⟨o, t, [], []⟩
  /-- one edit is made, and the tree with the edit is formatted once, where the target is by then -/
  applied : ∀ format s, (fix.apply format t anchor).outcome = .ok (.applied s) →
    ∃ b u b', anchor.resolve t = .ok b ∧ fix.Makes t b u ∧ u.node? b.id = some b' ∧ b.Kin b' ∧
      ∀ format', fix.apply format' t anchor = ⟨.ok (.applied s), (format' u b'.span).tree,
        [b'.span], (format' u b'.span).refused⟩
  /-- the edit is refused, and the tree as it was is formatted once, where the target is -/
  refused : ∀ format fault, (fix.apply format t anchor).outcome = .error (.tree fault) →
    fault ≠ .unknownNode ∧ ∃ b, anchor.resolve t = .ok b ∧ t.node? b.id = some b ∧
      ∀ format', fix.apply format' t anchor = ⟨.error (.tree fault), (format' t b.span).tree,
        [b.span], (format' t b.span).refused⟩
  /-- a rename is made once -/
  again : ∀ trigger format s, fix = .rename trigger → format = .idle ∨ format = .whitespace →
    (fix.apply format t anchor).outcome = .ok (.applied s) →
    ∀ format', fix.apply format' (fix.apply format t anchor).tree anchor =
      ⟨.ok .unchanged, (fix.apply format t anchor).tree, [], []⟩

/-- **What becomes of a fix**, at every anchor of every tree there is. -/
theorem obeys_of_reachable (h : t.Reachable) (fix : Fix) (anchor : Anchor) :
    fix.Obeys t anchor := by
  have numbered := h.numbered
  rcases does numbered fix anchor with ⟨quiet, done⟩ | ⟨resolved, makes, found, kin, done⟩ |
    ⟨resolved, found, alive, done⟩
  case nothing o =>
    constructor
    case quiet =>
      rintro format o' rfl - format'
      rw [done, done]
    case applied =>
      intro format s e
      rw [done] at e
      subst e
      cases quiet
    case refused =>
      intro format fault e
      rw [done] at e
      subst e
      cases quiet
    case again =>
      intro trigger format s _ _ e
      rw [done] at e
      subst e
      cases quiet
  case edit b b' u s =>
    constructor
    case quiet =>
      rintro format o' rfl quiet
      rw [done] at quiet
      cases quiet
    case applied =>
      intro format s' e
      rw [done] at e
      obtain rfl : s = s' := by simpa using e
      exact ⟨b, u, b', resolved, makes, found, kin, done⟩
    case refused =>
      intro format fault e
      rw [done] at e
      simp at e
    case again =>
      rintro trigger format s' rfl stock - format'
      rw [done]
      exact apply_rename_again numbered resolved makes stock _ format'
  case refused b fault =>
    constructor
    case quiet =>
      rintro format o' rfl quiet
      rw [done] at quiet
      cases quiet
    case applied =>
      intro format s e
      rw [done] at e
      simp at e
    case refused =>
      intro format fault' e
      rw [done] at e
      obtain rfl : fault = fault' := by simpa using e
      exact ⟨alive, b, resolved, found, done⟩
    case again =>
      intro trigger format s _ _ e
      rw [done] at e
      simp at e

/-- A binding whose value stands before its name: it can be renamed, but its value is not
removed. -/
theorem obeys_of_reversed : ∃ (t : Tree) (n : Placed),
    Tree.ofEvents 0 [.start .propertyBinding, .token .attributeValue "b",
      .token .attributeName "@a", .token .equals "=", .finish] = .ok t ∧
    n ∈ t.nodes ∧ n.kind = .attributeValue ∧
    (rename "a").Obeys t (Anchor.at t n) ∧ removeValue.Obeys t (Anchor.at t n) ∧
    ((rename "a").apply .idle t (Anchor.at t n)).outcome = .ok (.applied ⟨1, 5⟩) ∧
    (removeValue.apply .idle t (Anchor.at t n)).outcome =
      .error (.tree (.invalidEdit .reversed)) := by
  have built : Tree.ofEvents 0 [.start .propertyBinding, .token .attributeValue "b",
      .token .attributeName "@a", .token .equals "=", .finish] =
      .ok ⟨0, "", ⟨3, .propertyBinding, .node "" 0 .attributeValue (.tail "b")
        (.node "" 1 .attributeName (.tail "@a") (.node "" 2 .equals (.tail "=") (.tail "")))⟩,
        ""⟩ := rfl
  refine ⟨_, ⟨⟨0, .attributeValue, .tail "b"⟩, 0, some 3⟩, built, by decide +kernel, rfl,
    ?_, ?_, ?_, ?_⟩
  · exact obeys_of_reachable (.built built) (.rename "a") _
  · exact obeys_of_reachable (.built built) .removeValue _
  · decide +kernel
  · decide +kernel

end Fix

end SyntaxLint
