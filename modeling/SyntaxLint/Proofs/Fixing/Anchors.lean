import SyntaxLint.Proofs.Fixing.Reachable
import SyntaxLint.Proofs.Fixing.Target
import SyntaxLint.Proofs.Tree.Descent
import SyntaxLint.Tree.Grove

/-!
# Proofs — Fixing — anchors in a run

A run makes trees and changes them, in any order: trees are built, stored ones are loaded, sources
are parsed, any tree is copied, edited, reformatted or fixed.  Every tree that is made draws an
identity, so as long as the counter has not begun anew no two trees have the same; and what is
found under the identity of a node is what is left of that node.

An anchor therefore belongs to one tree, in whatever state.  It resolves to the parent of the node
it was taken at as long as that is alive and an attribute, and to nothing else.

* `Grove.Step`, `Grove.Run`: what happens to a grove.
* `Grove.Sound`: its trees are numbered and have identities of their own.
* `Anchor.aim?_at`: what an anchor aims at in what its tree has become.
* `Grove.anchored_of_run`: what it resolves to at every later state of a run.
-/

namespace SyntaxLint

variable {t u : Tree}

/-! ### What is left of trees -/

theorem Tree.Numbered.descends_edits (h : t.Numbered) (e : t.Edits u) : t.Descends u := by
  induction e with
  | refl => exact .refl t
  | more made e ih => exact ih.trans ((h.edits made).descends_tryEdit e)

theorem Tree.Edits.trans {w : Tree} (h : t.Edits u) (h' : u.Edits w) : t.Edits w := by
  induction h' with
  | refl => exact h
  | more _ e ih => exact ih.more e

/-- A fix changes a tree by edits only, if its formatter does. -/
theorem Fix.edits_apply (f : Fix) {format : Formatter} (hf : format.EditsOnly) (t : Tree)
    (anchor : Anchor) : t.Edits (f.apply format t anchor).tree := by
  rcases Fix.tree_apply f format t anchor with same | ⟨e, range, same⟩
  · rw [same]
    exact .refl
  · rw [same]
    exact (Tree.Edits.refl.more e).trans (hf _ range)

/-! ### Runs -/

namespace Grove

/-- What happens to a grove: a tree is made under the identity drawn next or refused, or one of its
trees is changed. -/
inductive Step (g : Grove) : Grove → Prop where
  | built {events : List Event} {t : Tree} (h : Tree.ofEvents g.identity events = .ok t) :
      Step g (g.add t)
  | stored {source : String} {n : OutlineNode} {t : Tree}
      (h : Tree.ofOutline g.identity source n = .ok t) : Step g (g.add t)
  | parsed {source : String} {t : Tree} (h : Template.parse g.identity source = .ok t) :
      Step g (g.add t)
  | refused : Step g g.skip
  | copied {i : Nat} {t : Tree} (h : g.get? i = some t) : Step g (g.add t)
  | edited {i : Nat} {t : Tree} (h : g.get? i = some t) (e : Edit) :
      Step g (g.set i (t.tryEdit e).tree)
  | reformatted {i : Nat} {t : Tree} (h : g.get? i = some t) (range : Span) :
      Step g (g.set i (Formatter.whitespace t range).tree)
  | fixed {i : Nat} {t : Tree} (h : g.get? i = some t) (f : Fix) {format : Formatter}
      (hf : format.EditsOnly) (anchor : Anchor) :
      Step g (g.set i (f.apply format t anchor).tree)

/-- What a grove becomes, one step after the other. -/
inductive Run (g : Grove) : Grove → Prop where
  | refl : Run g g
  | more {g' g'' : Grove} (h : Run g g') (s : Step g' g'') : Run g g''

variable {g g' : Grove} {i j : Nat}

/-- The trees of a grove are numbered, and as long as the counter has not begun anew their
identities are distinct and drawn before. -/
structure Sound (g : Grove) : Prop where
  numbered : ∀ t ∈ g.trees, t.Numbered
  drawn : ∀ t ∈ g.trees, t.identity ≤ g.drawn
  distinct : g.drawn < UInt64.size → (g.trees.map (·.identity)).Nodup

theorem sound_empty : empty.Sound := ⟨by simp [empty], by simp [empty], by simp [empty]⟩

/-- **What a step does**: a tree is added, one is refused, or one is edited. -/
theorem Step.cases (h : g.Step g') (sound : g.Sound) :
    (∃ t : Tree, t.Numbered ∧ g' = g.add t) ∨ g' = g.skip ∨
      ∃ i t u, g.get? i = some t ∧ t.Edits u ∧ g' = g.set i u := by
  cases h with
  | built h => exact .inl ⟨_, Tree.numbered_ofEvents h, rfl⟩
  | stored h => exact .inl ⟨_, Tree.numbered_ofOutline h, rfl⟩
  | parsed h => exact .inl ⟨_, Template.numbered_parse h, rfl⟩
  | refused => exact .inr (.inl rfl)
  | copied h => exact .inl ⟨_, sound.numbered _ (List.mem_of_getElem? h), rfl⟩
  | edited h e => exact .inr (.inr ⟨_, _, _, h, .more .refl e, rfl⟩)
  | reformatted h range =>
    exact .inr (.inr ⟨_, _, _, h, Formatter.whitespace_editsOnly _ range, rfl⟩)
  | fixed h f hf anchor => exact .inr (.inr ⟨_, _, _, h, f.edits_apply hf _ anchor, rfl⟩)

theorem get?_add_of_some {t a : Tree} (found : g.get? i = some a) :
    (g.add t).get? i = some a := by
  have inside := (List.getElem?_eq_some_iff.1 found).1
  rw [get?, add, List.getElem?_append_left inside]
  exact found

/-- A tree that is changed is what is left of the one that was there. -/
theorem exists_get?_set {t u a : Tree} (place : g.get? j = some t) (left : t.Descends u)
    (found : g.get? i = some a) : ∃ b, (g.set j u).get? i = some b ∧ a.Descends b := by
  by_cases same : j = i
  · subst same
    obtain rfl : a = t := Option.some.inj (found.symm.trans place)
    have inside := (List.getElem?_eq_some_iff.1 found).1
    exact ⟨u, List.getElem?_set_self inside, left⟩
  · exact ⟨a, (List.getElem?_set_ne same).trans found, .refl a⟩

theorem identities_set {t u : Tree} (place : g.get? j = some t) (same : u.identity = t.identity) :
    (g.set j u).trees.map (·.identity) = g.trees.map (·.identity) := by
  refine List.ext_getElem? fun k => ?_
  rw [set, List.getElem?_map, List.getElem?_map]
  by_cases here : j = k
  · subst here
    have inside := (List.getElem?_eq_some_iff.1 place).1
    have place : g.trees[j]? = some t := place
    rw [List.getElem?_set_self inside, place, Option.map_some, Option.map_some, same]
  · rw [List.getElem?_set_ne here]

/-- A tree more keeps a grove sound. -/
theorem Sound.add (h : g.Sound) {t : Tree} (ht : t.Numbered) : (g.add t).Sound := by
  have le : g.identity ≤ g.drawn + 1 := Nat.mod_le _ _
  constructor
  case numbered =>
    intro u hu
    rcases List.mem_append.1 hu with hu | hu
    · exact h.numbered u hu
    · obtain rfl := List.mem_singleton.1 hu
      exact ht
  case drawn =>
    intro u hu
    rcases List.mem_append.1 hu with hu | hu
    · exact Nat.le_succ_of_le (h.drawn u hu)
    · obtain rfl := List.mem_singleton.1 hu
      exact le
  case distinct =>
    intro few
    have few : g.drawn + 1 < UInt64.size := few
    have next : g.identity = g.drawn + 1 := Nat.mod_eq_of_lt few
    rw [Grove.add, List.map_append, List.nodup_append]
    refine ⟨h.distinct (by omega), by simp, ?_⟩
    rintro _ hx _ hy rfl
    obtain ⟨u, hu, rfl⟩ := List.mem_map.1 hx
    have same : u.identity = g.identity := by simpa [Tree.copy] using hy
    exact Nat.not_succ_le_self _ (next ▸ same ▸ h.drawn u hu)

/-- A tree that is edited keeps a grove sound. -/
theorem Sound.set (h : g.Sound) {t u : Tree} (place : g.get? i = some t) (edits : t.Edits u) :
    (g.set i u).Sound := by
  have ht := h.numbered t (List.mem_of_getElem? place)
  have same := (ht.descends_edits edits).identity
  have identities := identities_set place same
  constructor
  case numbered =>
    intro w hw
    rcases List.mem_or_eq_of_mem_set hw with hw | rfl
    · exact h.numbered w hw
    · exact ht.edits edits
  case drawn =>
    intro w hw
    rcases List.mem_or_eq_of_mem_set hw with hw | rfl
    · exact h.drawn w hw
    · exact same ▸ h.drawn t (List.mem_of_getElem? place)
  case distinct =>
    intro few
    rw [identities]
    exact h.distinct few

/-- **A step keeps a grove sound.** -/
theorem Step.sound (h : g.Step g') (sound : g.Sound) : g'.Sound := by
  rcases h.cases sound with ⟨t, ht, rfl⟩ | rfl | ⟨i, t, u, place, edits, rfl⟩
  · exact sound.add ht
  · exact ⟨sound.numbered, fun t ht => Nat.le_succ_of_le (sound.drawn t ht),
      fun few => sound.distinct (Nat.lt_of_succ_lt few)⟩
  · exact sound.set place edits

/-- After a step every tree is there still, or what is left of it. -/
theorem Step.exists_get? (h : g.Step g') (sound : g.Sound) {a : Tree} (found : g.get? i = some a) :
    ∃ b, g'.get? i = some b ∧ a.Descends b := by
  rcases h.cases sound with ⟨t, ht, rfl⟩ | rfl | ⟨j, t, u, place, edits, rfl⟩
  · exact ⟨a, get?_add_of_some found, .refl a⟩
  · exact ⟨a, found, .refl a⟩
  · have ht := sound.numbered t (List.mem_of_getElem? place)
    exact exists_get?_set place (ht.descends_edits edits) found

/-- A run keeps a grove sound. -/
theorem Run.sound (h : g.Run g') (sound : g.Sound) : g'.Sound := by
  induction h with
  | refl => exact sound
  | more _ s ih => exact s.sound ih

/-- **After a run every tree is there still**, or what is left of it. -/
theorem Run.exists_get? (h : g.Run g') (sound : g.Sound) {a : Tree} (found : g.get? i = some a) :
    ∃ b, g'.get? i = some b ∧ a.Descends b := by
  induction h with
  | refl => exact ⟨a, found, .refl a⟩
  | more run s ih =>
    obtain ⟨b, found', left⟩ := ih
    obtain ⟨c, found'', left'⟩ := s.exists_get? (run.sound sound) found'
    exact ⟨c, found'', left.trans left'⟩

end Grove

/-! ### What anchors resolve to -/

namespace Anchor

variable {a b : Tree} {n : Placed}

/-- An anchor does not resolve in another tree. -/
theorem resolve_of_ne {anchor : Anchor} (ne : b.identity ≠ anchor.tree) :
    anchor.resolve b = .error (.stale anchor.span) :=
  resolve_eq_stale_iff.2 fun _ resolved => ne (resolve_eq_ok_iff.1 resolved).1.symm

/-- **What an anchor aims at in what its tree has become**: what is left of the parent of its
node. -/
theorem aim?_at (ha : a.Numbered) (left : a.Descends b) (hn : n ∈ a.nodes) :
    (Anchor.at a n).aim? b = (a.parent? n).bind fun p => b.node? p.id := by
  cases parent : n.parent with
  | some id =>
    -- the target is recorded, and it is the parent that is found
    obtain ⟨p, hp, rfl⟩ : ∃ p ∈ a.nodes, p.id = id := by
      rcases Tree.eq_top_or_mem_children hn with rfl | ⟨p, hp, -, named⟩
      · simp [Tree.top] at parent
      · exact ⟨p, hp, Option.some.inj (named.symm.trans parent)⟩
    simp [Anchor.at, aim?, Tree.parent?, parent, ha.node?_id hp]
  | none =>
    -- no target is recorded for the root, and the node itself has no parent either
    have orphan : (b.node? n.id).bind b.parent? = none := by
      cases held : b.node? n.id with
      | none => rfl
      | some q => simp [Tree.parent?, (left.kin ha hn held).parent, parent]
    have top : a.parent? n = none := by simp [Tree.parent?, parent]
    rw [top, Option.bind_none, ← orphan]
    simp [Anchor.at, aim?, parent]

theorem resolve_at_eq_ok_iff (ha : a.Numbered) (left : a.Descends b) (hn : n ∈ a.nodes)
    {q : Placed} : (Anchor.at a n).resolve b = .ok q ↔
      ∃ p, a.parent? n = some p ∧ p.kind.isAttribute = true ∧ b.node? p.id = some q := by
  rw [resolve_eq_ok_iff, aim?_at ha left hn, Option.bind_eq_some_iff]
  constructor
  · rintro ⟨-, ⟨p, parent, found⟩, attr⟩
    have kind := (left.kin ha (Tree.mem_nodes_of_parent? parent) found).kind
    exact ⟨p, parent, kind ▸ attr, found⟩
  · rintro ⟨p, parent, attr, found⟩
    have kind := (left.kin ha (Tree.mem_nodes_of_parent? parent) found).kind
    exact ⟨left.identity.symm, ⟨p, parent, found⟩, kind ▸ attr⟩

end Anchor

namespace Grove

variable {g g' : Grove} {i : Nat} {a : Tree} {n : Placed}

/-- What has become, in a grove, of an anchor that was taken at a node `n` when the `i`-th tree was
`a`. -/
structure Anchored (g : Grove) (i : Nat) (a : Tree) (n : Placed) : Prop where
  /-- it does not resolve in any other tree -/
  elsewhere : ∀ j c, j ≠ i → g.get? j = some c →
    (Anchor.at a n).resolve c = .error (.stale n.span)
  /-- it resolves to the parent of the node, an attribute, as long as that is alive -/
  here : ∃ b, g.get? i = some b ∧
    (∀ q, (Anchor.at a n).resolve b = .ok q ↔
      ∃ p, a.parent? n = some p ∧ p.kind.isAttribute = true ∧ b.node? p.id = some q) ∧
    ∀ e, (Anchor.at a n).resolve b = .error e → e = .stale n.span
  /-- what is found of the parent has the kind and the parent that it had -/
  kept : ∀ b p q, g.get? i = some b → a.parent? n = some p → b.node? p.id = some q → p.Kin q
  /-- once the parent is dead the anchor is stale for ever -/
  dead : ∀ b p, g.get? i = some b → a.parent? n = some p → b.node? p.id = none →
    ∀ g', g.Run g' → ∃ c, g'.get? i = some c ∧ c.node? p.id = none ∧
      (Anchor.at a n).resolve c = .error (.stale n.span)

/-- Of two trees of a sound grove each has an identity of its own. -/
theorem Sound.identity_ne (h : g.Sound) (few : g.drawn < UInt64.size) {j : Nat} {b c : Tree}
    (ne : j ≠ i) (hb : g.get? i = some b) (hc : g.get? j = some c) : c.identity ≠ b.identity := by
  intro same
  have listed : ∀ {k : Nat} {t : Tree}, g.get? k = some t →
      (g.trees.map (·.identity))[k]? = some t.identity := by
    intro k t found
    have found : g.trees[k]? = some t := found
    rw [List.getElem?_map, found, Option.map_some]
  have inside := (List.getElem?_eq_some_iff.1 (listed hc)).1
  refine ne ((List.getElem?_inj inside (h.distinct few)).1 ?_)
  rw [listed hc, listed hb, same]

/-- **What an anchor resolves to at every later state of a run.** -/
theorem anchored_of_run (h : empty.Run g) (ha : g.get? i = some a) (hn : n ∈ a.nodes)
    (later : g.Run g') (few : g'.drawn < UInt64.size) : g'.Anchored i a n := by
  have sound := h.sound sound_empty
  have sound' := later.sound sound
  have numbered := sound.numbered a (List.mem_of_getElem? ha)
  obtain ⟨b, hb, left⟩ := later.exists_get? sound ha
  have only : ∀ {c}, g'.get? i = some c → c = b := fun hc => Option.some.inj (hc.symm.trans hb)
  constructor
  case elsewhere =>
    intro j c ne hc
    refine Anchor.resolve_of_ne ?_
    have apart := sound'.identity_ne few ne hb hc
    rwa [left.identity] at apart
  case here =>
    exact ⟨b, hb, fun q => Anchor.resolve_at_eq_ok_iff numbered left hn,
      fun e stale => Anchor.eq_stale_of_resolve stale⟩
  case kept =>
    intro c p q hc parent found
    obtain rfl := only hc
    exact left.kin numbered (Tree.mem_nodes_of_parent? parent) found
  case dead =>
    intro c p hc parent gone g'' after
    obtain rfl := only hc
    obtain ⟨d, hd, left'⟩ := after.exists_get? sound' hb
    have gone' := left'.node?_eq_none gone
    refine ⟨d, hd, gone', Anchor.resolve_eq_stale_iff.2 fun q resolved => ?_⟩
    obtain ⟨p', parent', -, found⟩ :=
      (Anchor.resolve_at_eq_ok_iff numbered (left.trans left') hn).1 resolved
    obtain rfl := Option.some.inj (parent.symm.trans parent')
    simp [gone'] at found

/-- A tree with a binding is copied, and the value of the binding is removed from the first of the
two.  The anchor was taken at the value. -/
theorem anchored_of_copied : ∃ (g g' : Grove) (a : Tree) (n : Placed),
    g.get? 0 = some a ∧ n ∈ a.nodes ∧ n.kind = .attributeValue ∧ empty.Run g ∧ g.Run g' ∧
    g'.drawn = 2 ∧ g'.trees.map (·.node? n.id) = [none, some n] ∧ g'.Anchored 0 a n := by
  let a : Tree := ⟨1, "", ⟨3, .document, .node "" 2 .propertyBinding
    (.node "" 0 .attributeName (.tail "@a") (.node "" 1 .attributeValue (.tail "b") (.tail "")))
    (.tail "")⟩, ""⟩
  let n : Placed := ⟨⟨1, .attributeValue, .tail "b"⟩, 2, some 2⟩
  have built : Tree.ofEvents empty.identity [.start .document, .start .propertyBinding,
      .token .attributeName "@a", .token .attributeValue "b", .finish, .finish] = .ok a := rfl
  have made : empty.Run (empty.add a) := .more .refl (.built built)
  have copied : (empty.add a).Run ((empty.add a).add a) :=
    .more .refl (.copied (i := 0) (t := a) rfl)
  have removed := copied.more (.edited (i := 0) (t := a) rfl (.remove 2 1 1))
  have listed : n ∈ a.nodes := by decide +kernel
  refine ⟨_, _, a, n, rfl, listed, rfl, made, removed, rfl, by decide +kernel, ?_⟩
  exact anchored_of_run made rfl listed removed (by decide)

end Grove

end SyntaxLint
