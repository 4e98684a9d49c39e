import Mathlib.Data.List.Perm.Basic
import SyntaxLint.Fixing.Rounds
import SyntaxLint.Proofs.Fixing.Reachable
import SyntaxLint.Proofs.Fixing.Rename

/-!
# Proofs — Fixing — rounds over templates

A round over a template applies the fix of every diagnostic: the bindings stand apart, so each fix
finds its binding as the template had it, whatever the fixes before it did and in whatever order
they come.  After one round nothing is left to report.  The source must have room for two more bytes
for each diagnostic.

* `Tree.Ready`: what holds between two fixes of a round.
* `Tree.Ready.foldl_applyFirst`: what the fixes of a round make of a tree.
* `Rounds.fixAll_eq`: what all rounds make of a template.
-/

namespace SyntaxLint

open Template

variable {t : Tree} {b b' n : Node} {d : Diagnostic} {ds : List Diagnostic} {bs : List Node}
  {space : String → Option String} {format : Formatter}

/-! ### One fix after the other -/

/-- A diagnostic about a binding whose first fix binds its trigger. -/
structure Diagnostic.Repairs (d : Diagnostic) (identity : TreeId) (b : Node) : Prop where
  tree : d.anchor.tree = identity
  target : d.anchor.target = some b.id
  fix : ∃ trigger more, d.fixes = .rename trigger :: more ∧ b.Triggers trigger

/-- A tree in which the bindings that the given diagnostics are about are alive and stand apart. -/
structure Tree.Ready (t : Tree) (ds : List Diagnostic) (bs : List Node) : Prop where
  regular : t.Regular
  repairs : List.Forall₂ (fun d b => d.Repairs t.identity b) ds bs
  alive : ∀ b ∈ bs, b ∈ t.content.members
  apart : bs.Pairwise Node.Apart

/-- A binding apart from others keeps its content when these are rebound. -/
theorem Node.Apart.retext (h : b.Apart b') : b'.retext (Node.changeBelow space [b]) = b' := by
  have out : ∀ {m : Node}, m.id ∈ b'.id :: b'.body.ids → m.changeBelow space [b] = none :=
    fun mem => if_neg fun ⟨k, hk, inside⟩ => by
      obtain rfl := List.mem_singleton.1 hk
      exact h _ (List.mem_cons_of_mem _ inside) mem
  exact Node.retext_of_none (out List.mem_cons_self)
    fun m hm => out (List.mem_cons_of_mem _ (Content.id_mem_of_mem_members hm))

theorem Tree.Regular.isLeaf_of_changeBelow (ht : t.Regular) :
    ∀ n ∈ t.content.members, (n.changeBelow space bs).isSome → n.body.isLeaf := by
  intro n hn some
  unfold Node.changeBelow at some
  split at some
  · exact ht.isLeaf_of_change hn some
  · simp at some

theorem Node.change_ne_empty (hs : OneSpace space) {n : Node} {x : String}
    (h : n.change space = some x) : x ≠ "" := by
  unfold Node.change at h
  split at h
  · obtain rfl := Option.some.inj h
    simp
  · split at h
    · rw [hs _ _ h]
      simp
    · simp at h

theorem Node.changeBelow_ne_empty (hs : OneSpace space) (n : Node) (x : String)
    (h : n.changeBelow space bs = some x) : x ≠ "" := by
  unfold Node.changeBelow at h
  split at h
  · exact change_ne_empty hs h
  · simp at h

/-- A node without a new text of its own is changed as before. -/
theorem Tree.Regular.change_retext (ht : t.Regular) (hn : n ∈ t.content.members)
    {h : Node → Option String} (none : h n = none) :
    (n.retext h).change space = n.change space := by
  unfold Node.change
  rw [Node.kind_retext]
  by_cases name : n.kind = .attributeName
  · rw [Node.text_retext_of_isLeaf (ht.name n hn name), none, Option.getD_none]
  · by_cases blank : n.kind = .whitespace
    · rw [Node.text_retext_of_isLeaf (ht.blank n hn blank).1, none, Option.getD_none]
    · rw [if_neg name, if_neg name, if_neg blank, if_neg blank]

/-- **The fix of one diagnostic leaves the tree ready for the others.** -/
theorem Tree.Ready.step (h : t.Ready (d :: ds) (b :: bs)) (hs : OneSpace space) :
    (t.retext (Node.changeBelow space [b])).Ready ds bs := by
  obtain ⟨apart, rest⟩ := List.pairwise_cons.1 h.apart
  have leaves : ∀ n ∈ t.content.members, (n.changeBelow space [b]).isSome → n.body.isLeaf :=
    h.regular.isLeaf_of_changeBelow
  refine ⟨h.regular.retext leaves (Node.changeBelow_ne_empty hs), ?_, fun b' hb' => ?_, rest⟩
  · cases h.repairs with
    | cons _ rest => exact rest
  · rw [content_retext, Content.members_retext leaves, ← (apart b' hb').retext]
    exact List.mem_map_of_mem (h.alive b' (List.mem_cons_of_mem b hb'))

/-- New texts below one binding and then below others. -/
theorem Tree.Ready.retext_cons (h : t.Ready (d :: ds) (b :: bs)) :
    (t.retext (Node.changeBelow space [b])).retext (Node.changeBelow space bs) =
      t.retext (Node.changeBelow space (b :: bs)) := by
  obtain ⟨apart, -⟩ := List.pairwise_cons.1 h.apart
  rw [retext_retext]
  refine retext_congr fun n hn => ?_
  by_cases here : n.id ∈ b.body.ids
  · have elsewhere : ¬ ∃ b' ∈ bs, n.id ∈ b'.body.ids := fun ⟨b', hb', inside⟩ =>
      apart b' hb' _ (List.mem_cons_of_mem _ here) (List.mem_cons_of_mem _ inside)
    simp [Node.changeBelow, here, elsewhere]
  · have same : (n.retext (Node.changeBelow space [b])).change space = n.change space :=
      h.regular.change_retext hn (by simp [Node.changeBelow, here])
    simp [Node.changeBelow, here, same]

/-- The first binding, where it stands. -/
theorem Tree.Ready.exists_first (h : t.Ready (d :: ds) (b :: bs)) : ∃ q ∈ t.nodes, q.toNode = b ∧
    d.anchor.tree = t.identity ∧ d.anchor.target = some q.id ∧
    ∃ trigger more, d.fixes = .rename trigger :: more ∧ q.Triggers trigger := by
  obtain ⟨q, hq, rfl⟩ := Tree.exists_placed (h.alive b List.mem_cons_self)
  have one : d.Repairs t.identity q.toNode := by
    cases h.repairs with
    | cons one _ => exact one
  exact ⟨q, hq, rfl, one.tree, one.target, one.fix⟩

/-- The source becomes longer by two bytes for each binding at most. -/
theorem Tree.Ready.length_le (h : t.Ready ds bs) (hs : OneSpace space) :
    (t.retext (Node.changeBelow space bs)).source.utf8ByteSize ≤
      t.source.utf8ByteSize + 2 * ds.length := by
  induction ds generalizing t bs with
  | nil =>
    cases h.repairs
    rw [Tree.retext_of_none fun n _ => by simp [Node.changeBelow]]
    exact Nat.le_refl _
  | cons d ds ih =>
    cases bs with
    | nil => cases h.repairs
    | cons b bs =>
      obtain ⟨q, hq, rfl, -, -, trigger, more, -, triggers⟩ := h.exists_first
      have first := h.regular.length_changeBelow_le hs hq triggers
      have others := ih (h.step hs)
      rw [h.retext_cons] at others
      rw [List.length_cons]
      omega

/-- **The fixes of a round** bind every trigger that a diagnostic is about. -/
theorem Tree.Ready.foldl_applyFirst (hf : format.Spaces space) (hs : OneSpace space)
    {p : Progress} (h : p.tree.Ready ds bs)
    (room : p.tree.source.utf8ByteSize + 2 * ds.length < 2 ^ 32) : ∃ ranges,
      ds.foldl (Rounds.applyFirst format) p =
      ⟨p.tree.retext (Node.changeBelow space bs), p.applied + ds.length, ranges, p.warnings⟩ := by
  -- by induction on the diagnostics: each fix leaves a tree that is ready for the rest of them
  induction ds generalizing p bs with
  | nil =>
    cases h.repairs
    refine ⟨p.ranges, ?_⟩
    rw [Tree.retext_of_none fun n _ => by simp [Node.changeBelow]]
    rfl
  | cons d ds ih =>
    cases bs with
    | nil => cases h.repairs
    | cons b bs =>
      rw [List.length_cons] at room
      obtain ⟨q, hq, rfl, tree, target, trigger, more, fixes, triggers⟩ := h.exists_first
      obtain ⟨span, range, applied⟩ :=
        Fix.apply_rename hf h.regular (by omega) hq triggers tree target
      have first : Rounds.applyFirst format p d =
          ⟨p.tree.retext (Node.changeBelow space [q.toNode]), p.applied + 1,
            p.ranges ++ [range], p.warnings⟩ := by
        simp [Rounds.applyFirst, fixes, applied, Rounds.isApplied, Rounds.failure]
      have ready : (Rounds.applyFirst format p d).tree.Ready ds bs := by
        rw [first]
        exact h.step hs
      have longer := h.regular.length_changeBelow_le hs hq triggers
      obtain ⟨ranges, others⟩ := ih ready (by rw [first]; dsimp only; omega)
      refine ⟨ranges, ?_⟩
      rw [List.foldl_cons, others, first]
      simp [h.retext_cons, Nat.add_assoc, Nat.add_comm 1]

/-! ### Templates -/

/-- What is known of the tree of a template. -/
structure Template.Formed (t : Tree) : Prop where
  short : t.source.utf8ByteSize < 2 ^ 32
  numbered : t.Numbered
  shaped : ∀ n ∈ t.content.members, Shaped n
  frame : IsFrame t.root.kind
  again : ∀ j, parse j t.source = .ok (t.copy j)

theorem Template.Formed.regular (h : Formed t) : t.Regular :=
  ⟨h.numbered, fun n hn kind => (h.shaped n hn).token (by rw [kind]; rfl),
    fun n hn kind => ⟨(h.shaped n hn).token (by rw [kind]; rfl), (h.shaped n hn).blank kind⟩⟩

theorem Template.Formed.language (h : Formed t) : t.root.kind.language = .template := by
  have frame := h.frame
  simp only [IsFrame, List.mem_cons, List.not_mem_nil, or_false] at frame
  rcases frame with e | e | e | e <;> rw [e] <;> rfl

/-- What a template is parsed to is the tree of one. -/
theorem Template.formed_parse {identity : TreeId} {source : String}
    (short : source.utf8ByteSize < 2 ^ 32) (h : parse identity source = .ok t) : Formed t := by
  obtain ⟨shaped, frame⟩ := shaped_parse short h
  have text := source_parse h
  exact ⟨text ▸ short, numbered_parse h, shaped, frame, text ▸ parse_copy h⟩

/-- **A rebound template is the tree of a template.** -/
theorem Template.Formed.rebind (h : Formed t) (hs : OneSpace space)
    (short : (t.rebind space).source.utf8ByteSize < 2 ^ 32) : Formed (t.rebind space) := by
  have again := parse_rebind hs h.short short (h.again t.identity)
  exact formed_parse short (again t.identity)

theorem Tree.reported_rebind (h : Formed t) (hs : OneSpace space) :
    (t.rebind space).content.reported = [] := by
  have same : (t.rebind space).content = t.content.rebind space := rfl
  rw [same]
  exact Content.reported_rebind hs h.shaped

theorem Tree.retext_reported (h : Formed t) :
    t.retext (Node.changeBelow space t.content.reported) = t.rebind space :=
  eq_of_content (Content.retext_reported h.numbered.nodup) rfl

/-- A tree with reported bindings has another text once they are rebound. -/
theorem Tree.source_rebind_ne (h : Formed t) (hs : OneSpace space)
    (some : t.content.reported ≠ []) : (t.rebind space).source ≠ t.source := by
  intro same
  have again := (h.rebind hs (same ▸ h.short)).again 0
  rw [same, h.again 0] at again
  have copies : t.copy 0 = (t.rebind space).copy 0 := Except.ok.inj again
  have content : (t.copy 0).content = ((t.rebind space).copy 0).content :=
    congrArg Tree.content copies
  exact some ((congrArg Content.reported content).trans (reported_rebind h hs))

/-! ### One round -/

/-- The trigger of a reported binding. -/
theorem Template.Shaped.triggers (hs : Shaped n) (reported : n.isReported = true) :
    n.Triggers n.trigger := by
  have kind := Node.kind_of_isReported reported
  obtain ⟨m, named, -, -, only⟩ := hs.exists_name kind
  refine ⟨kind, m, named, ?_, only⟩
  have trigger : AttributeName.isTrigger m.body.text.toList = true := by
    rw [Node.isReported, named] at reported
    simp only [Option.any_some, Bool.and_eq_true] at reported
    exact reported.1.2
  rw [Node.trigger, named, Option.map_some, Option.getD_some, AttributeName.binding]
  apply String.toList_inj.1
  unfold AttributeName.isTrigger at trigger
  split at trigger
  · rename_i c rest text
    simp [text, AttributeName.bindingOf_trigger]
  · simp at trigger

/-- What is reported at a binding repairs the binding. -/
theorem Reporter.assigned_repairs (r : Reporter) {p : Placed} (hs : Shaped p.toNode)
    (reported : p.isReported = true) : (r.assigned p).Repairs r.tree.identity p.toNode := by
  have valued : (p.child? .attributeValue).isSome := by
    by_contra empty
    rw [Option.not_isSome_iff_eq_none] at empty
    have empty : p.body.child? .attributeValue = none := by
      rw [← p.map_toNode_child?, empty]
      rfl
    simp [Node.isReported, empty] at reported
  obtain ⟨v, found⟩ := Option.isSome_iff_exists.1 valued
  refine ⟨rfl, ?_, p.trigger, [.removeValue], rfl, hs.triggers reported⟩
  have owner : v.parent = some p.id :=
    Content.parent_of_mem_siblings (List.mem_of_find?_eq_some found)
  simp [assigned, found, diagnostic, Anchor.at, owner]

theorem Template.Formed.repairs (h : Formed t) (severity : Severity) {p : Placed}
    (hp : p ∈ t.nodes) (reported : p.isReported = true) :
    ((AnimationTrigger.reporter t severity).assigned p).Repairs t.identity p.toNode :=
  Reporter.assigned_repairs _ (h.shaped _ (Tree.toNode_mem hp)) reported

/-- The reported nodes of a tree are those of its content. -/
theorem Tree.map_toNode_reported (t : Tree) :
    (t.nodes.filter (·.isReported)).map (·.toNode) = t.content.reported := by
  rw [Content.reported, ← Content.map_toNode_preorder t.content 0 none, List.filter_map]
  rfl

/-- **A template is ready for the fixes of its diagnostics**, in any order. -/
theorem Template.Formed.ready (h : Formed t) (severity : Severity)
    (sorted : ds.Perm ((t.nodes.filter (·.isReported)).map
      (AnimationTrigger.reporter t severity).assigned)) :
    ∃ bs, bs.Perm t.content.reported ∧ t.Ready ds bs := by
  have repairs : List.Forall₂ (fun d b => d.Repairs t.identity b)
      ((t.nodes.filter (·.isReported)).map (AnimationTrigger.reporter t severity).assigned)
      t.content.reported := by
    rw [← t.map_toNode_reported, List.forall₂_map_left_iff, List.forall₂_map_right_iff,
      List.forall₂_same]
    intro p hp
    obtain ⟨mem, reported⟩ := List.mem_filter.1 hp
    exact h.repairs severity mem reported
  -- whatever order the diagnostics are in, their bindings are put in the same
  obtain ⟨bs, repairs, perm⟩ := List.perm_comp_forall₂ sorted repairs
  refine ⟨bs, perm, h.regular, repairs, fun b hb => ?_, ?_⟩
  · exact Content.mem_members_of_mem_reported (perm.mem_iff.1 hb)
  · exact (perm.pairwise_iff Node.Apart.symm).2
      (Content.apart_reported h.numbered.nodup h.shaped)

/-- New texts below all reported bindings, in any order. -/
theorem Tree.retext_of_perm_reported (h : Formed t) (perm : bs.Perm t.content.reported) :
    t.retext (Node.changeBelow space bs) = t.rebind space := by
  rw [← retext_reported h]
  refine retext_congr fun n _ => Node.changeBelow_congr ?_
  simp only [perm.mem_iff]

/-- A rebound template is longer by two bytes for each reported binding at most. -/
theorem Template.Formed.length_rebind_le (h : Formed t) (hs : OneSpace space) :
    (t.rebind space).source.utf8ByteSize ≤
      t.source.utf8ByteSize + 2 * t.content.reported.length := by
  obtain ⟨bs, perm, ready⟩ := h.ready .error (.refl _)
  have longer := ready.length_le hs
  rwa [Tree.retext_of_perm_reported h perm, List.length_map, ← List.length_map (·.toNode),
    t.map_toNode_reported] at longer

namespace Rounds

variable {i : Inspector} {severity : Severity}

/-- **One round over a template** rebinds it. -/
theorem round_eq (on : i.Watches severity) (hf : format.Spaces space) (hs : OneSpace space)
    {p : Progress} (h : Formed p.tree)
    (room : p.tree.source.utf8ByteSize + 2 * p.tree.content.reported.length < 2 ^ 32) :
    ∃ ranges, round i format p =
      ⟨p.tree.rebind space, p.applied + p.tree.content.reported.length, ranges, p.warnings⟩ := by
  have found := Inspector.findings_eq on h.shaped h.language
  have noted : note p (i.findings p.tree) = p := by
    simp [note, found, Findings.add, Findings.more, Findings.none]
  have sorted := List.mergeSort_perm ((p.tree.nodes.filter (·.isReported)).map
    (AnimationTrigger.reporter p.tree severity).assigned)
    fun a b => Diagnostic.compare a b != .gt
  obtain ⟨bs, perm, ready⟩ := h.ready severity sorted
  have count : (((p.tree.nodes.filter (·.isReported)).map
      (AnimationTrigger.reporter p.tree severity).assigned).mergeSort
        fun a b => Diagnostic.compare a b != .gt).length = p.tree.content.reported.length := by
    rw [sorted.length_eq, ← p.tree.map_toNode_reported, List.length_map, List.length_map]
  obtain ⟨ranges, fixed⟩ := ready.foldl_applyFirst hf hs (count.symm ▸ room)
  refine ⟨ranges, ?_⟩
  rw [round, noted, found]
  simp only [Findings.add, Findings.more, Findings.none, List.nil_append]
  refine fixed.trans ?_
  rw [Tree.retext_of_perm_reported h perm, count]

/-- Nothing is found in a template without reported bindings. -/
theorem findings_of_nil (on : i.Watches severity) (h : Formed t)
    (nothing : t.content.reported = []) : i.findings t = .none := by
  have empty : t.nodes.filter (·.isReported) = [] :=
    List.map_eq_nil_iff.1 (t.map_toNode_reported.trans nothing)
  rw [Inspector.findings_eq on h.shaped h.language, Findings.add, empty]
  rfl

theorem note_none (p : Progress) : note p .none = p := by
  simp [note, Findings.none]

/-- A round that finds nothing does nothing. -/
theorem round_of_none {p : Progress} (h : i.findings p.tree = .none) : round i format p = p := by
  rw [round, h, note_none]
  simp [Findings.none, Diagnostic.sort]

/-! ### All rounds -/

theorem exists_allowed (limit : Nat) : ∃ left, allowed limit = left + 1 :=
  ⟨limit - 1, by rw [allowed]; omega⟩

/-- No rounds are needed where nothing is found. -/
theorem fixAll_of_none (h : i.findings t = .none) (limit : Nat) :
    fixAll i format limit t = ⟨.converged 1, start t⟩ := by
  obtain ⟨left, allowed⟩ := exists_allowed limit
  have once : round i format (start t) = start t := round_of_none h
  rw [fixAll, allowed, iterate]
  simp only [once, if_true]

/-- **All rounds over a template**: the first rebinds it, and a second, if one is allowed, finds
nothing. -/
theorem fixAll_eq (on : i.Watches severity) (hf : format.Spaces space) (hs : OneSpace space)
    (h : Formed t) (room : t.source.utf8ByteSize + 2 * t.content.reported.length < 2 ^ 32)
    (limit : Nat) : ∃ ranges, fixAll i format limit t =
      ⟨.converged (if t.content.reported.length = 0 ∨ limit ≤ 1 then 1 else 2),
        t.rebind space, t.content.reported.length, ranges, []⟩ := by
  obtain ⟨ranges, first⟩ := round_eq (p := start t) on hf hs h room
  simp only [start, Nat.zero_add] at first
  refine ⟨ranges, ?_⟩
  obtain ⟨left, allowed⟩ := exists_allowed limit
  rw [fixAll, allowed, iterate]
  simp only [start, first]
  by_cases none : t.content.reported.length = 0
  · rw [if_pos none, if_pos (.inl none)]
  · have some : t.content.reported ≠ [] := fun e => none (by rw [e]; rfl)
    have short := Nat.lt_of_le_of_lt (h.length_rebind_le hs) room
    have clean := findings_of_nil on (h.rebind hs short) (Tree.reported_rebind h hs)
    -- equal texts would be parsed to equal trees, of which only one has reported bindings
    have fresh : [t.source].findIdx? (· == (t.rebind space).source) = .none := by
      simp [List.findIdx?_cons, (Tree.source_rebind_ne h hs some).symm]
    rw [if_neg none, fresh]
    cases left with
    | zero =>
      have one : limit ≤ 1 := by
        rw [Rounds.allowed] at allowed
        omega
      have fixable : fixable i (t.rebind space) = 0 := by
        simp [Rounds.fixable, Inspector.run, clean, Findings.none, Diagnostic.sort]
      simp only [iterate, clean, note_none, fixable, if_true, if_pos (Or.inr one)]
    | succ left =>
      have more : ¬ (t.content.reported.length = 0 ∨ limit ≤ 1) := by
        rw [Rounds.allowed] at allowed
        omega
      have again : round i format ⟨t.rebind space, t.content.reported.length, ranges, []⟩ =
          ⟨t.rebind space, t.content.reported.length, ranges, []⟩ := round_of_none clean
      simp only [iterate, again, if_true, if_neg more]

end Rounds

end SyntaxLint
