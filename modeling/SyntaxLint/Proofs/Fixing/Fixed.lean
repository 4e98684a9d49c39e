import SyntaxLint.Proofs.Fixing.Rounds

/-!
# Proofs — Fixing — fixed templates

What fixing makes of a template, told by the diagnostics of the template: how the rounds end, how
many fixes are applied, what every leaf then says, and that parsing the text of the fixed tree
gives the fixed tree again.  Brackets make the source two bytes longer for each diagnostic, and
offsets must reach its end with them.

* `Tree.Fixed`: a template after its bindings are fixed.
* `Rounds.fixed_fixAll`: the default inspector fixes them all.
* `Rounds.parse_source_fixAll`: whatever inspector there is, the fixed text is that of the fixed
  tree.
-/

namespace SyntaxLint

open Template

/-- Whether a node stands below one that the fixes of some diagnostics may change. -/
def Tree.InReach (t : Tree) (ds : List Diagnostic) (n : Placed) : Prop :=
  ∃ d ∈ ds, ∃ b ∈ t.nodes, d.anchor.target = some b.id ∧ n ∈ b.descendants

instance (t : Tree) (ds : List Diagnostic) (n : Placed) : Decidable (t.InReach ds n) :=
  inferInstanceAs (Decidable (∃ d ∈ ds, ∃ b ∈ t.nodes, d.anchor.target = some b.id ∧
    n ∈ b.descendants))

/-- The text of a leaf once the bindings of some diagnostics are fixed.  White space on one line
is one space then, if it is tidied. -/
def Tree.fixedText (t : Tree) (ds : List Diagnostic) (tidy : Bool) (n : Placed) : String :=
  if t.InReach ds n then
    if n.kind = .attributeName then "[" ++ n.text ++ "]"
    else if tidy = true ∧ n.kind = .whitespace ∧ '\n' ∉ n.text.toList ∧ '\r' ∉ n.text.toList then
      " "
    else n.text
  else n.text

/-- The formatter that tidies white space, or the one that leaves it. -/
def Formatter.ofTidy : Bool → Formatter
  | true => .whitespace
  | false => .idle

/-- How the rounds over a template end when `ds` are its diagnostics. -/
structure Tree.Fixed (t : Tree) (ds : List Diagnostic) (tidy : Bool) (limit : Nat) (r : Report) :
    Prop where
  ending : r.ending = .converged (if ds.length = 0 ∨ limit ≤ 1 then 1 else 2)
  applied : r.progress.applied = ds.length
  /-- every diagnostic is about a binding whose one name is that of a trigger -/
  names : ∀ d ∈ ds, ∃ b ∈ t.nodes, ∃ name trigger, d.anchor.target = some b.id ∧
    b.kind = .propertyBinding ∧ b.descendantsOf .attributeName = [name] ∧
    name.text = "@" ++ trigger
  leaves : (r.progress.tree.nodes.filter (·.isLeaf)).map (fun n => (n.id, n.kind, n.text)) =
    (t.nodes.filter (·.isLeaf)).map fun n => (n.id, n.kind, t.fixedText ds tidy n)

/-- A diagnostic as it is on a tree of another identity. -/
def Diagnostic.onTree (d : Diagnostic) (identity : TreeId) : Diagnostic :=
  { d with anchor := { d.anchor with tree := identity } }

variable {t : Tree} {n b : Placed} {d : Diagnostic} {i : Inspector} {severity : Severity}
  {tidy : Bool}

/-! ### Formatters -/

/-- What white space becomes. -/
def Formatter.spaceOf : Bool → String → Option String
  | true => oneSpace
  | false => fun _ => none

theorem Formatter.spaces_ofTidy (tidy : Bool) : (ofTidy tidy).Spaces (spaceOf tidy) := by
  cases tidy with
  | true => exact spaces_whitespace
  | false => exact spaces_idle

theorem Formatter.oneSpace_spaceOf (tidy : Bool) : OneSpace (spaceOf tidy) := by
  cases tidy with
  | true => exact oneSpace_oneSpace
  | false => intro s x h; simp [spaceOf] at h

theorem Formatter.getD_spaceOf (tidy : Bool) (s : String) : (spaceOf tidy s).getD s =
    if tidy = true ∧ '\n' ∉ s.toList ∧ '\r' ∉ s.toList then " " else s := by
  cases tidy with
  | false => simp [spaceOf]
  | true =>
    have oneLine : (s.toList.all fun c => c != '\n' && c != '\r') = true ↔
        '\n' ∉ s.toList ∧ '\r' ∉ s.toList := by
      simp only [List.all_eq_true, Bool.and_eq_true, bne_iff_ne, forall_and]
      exact and_congr ⟨fun h mem => h _ mem rfl, fun h c mem e => h (e ▸ mem)⟩
        ⟨fun h mem => h _ mem rfl, fun h c mem e => h (e ▸ mem)⟩
    by_cases one : s = " "
    · simp [spaceOf, oneSpace, one]
    · by_cases line : '\n' ∉ s.toList ∧ '\r' ∉ s.toList
      · simp [spaceOf, oneSpace, one, line, oneLine.2 line]
      · have broken := Bool.eq_false_iff.2 (mt oneLine.1 line)
        rw [if_neg fun h => line h.2]
        simp only [spaceOf, oneSpace, broken, Bool.and_false]
        rfl

/-! ### Diagnostics of a template -/

theorem Inspector.length_run (on : i.Watches severity) (h : Formed t) :
    (i.run t).length = t.content.reported.length := by
  have found := findings_eq on h.shaped h.language
  rw [run, found, Diagnostic.sort, (List.mergeSort_perm _ _).length_eq, ← t.map_toNode_reported,
    List.length_map]
  simp [Findings.add, Findings.more, Findings.none]

/-- The nodes in reach of the diagnostics of a template are those below its reported bindings. -/
theorem Inspector.inReach_iff (on : i.Watches severity) (h : Formed t) (hn : n ∈ t.nodes) :
    t.InReach (i.run t) n ↔ ∃ b ∈ t.content.reported, n.id ∈ b.body.ids := by
  rw [← t.map_toNode_reported]
  constructor
  · rintro ⟨d, hd, b, hb, same, below⟩
    obtain ⟨b', hb', reported, rfl⟩ := (mem_run_iff on h.shaped h.language).1 hd
    have target := (h.repairs severity hb' reported).target
    have same : b'.id = b.id := Option.some.inj (target.symm.trans same)
    obtain rfl := h.numbered.eq_of_id_eq hb' hb same
    exact ⟨b'.toNode, List.mem_map_of_mem (List.mem_filter.2 ⟨hb, reported⟩),
      Content.id_mem_ids below⟩
  · rintro ⟨m, hm, below⟩
    obtain ⟨b, hb, rfl⟩ := List.mem_map.1 hm
    obtain ⟨hb, reported⟩ := List.mem_filter.1 hb
    exact ⟨_, (mem_run_iff on h.shaped h.language).2 ⟨b, hb, reported, rfl⟩, b, hb,
      (h.repairs severity hb reported).target,
      Content.mem_preorder_of_id_mem_ids h.numbered.nodup hn hb below⟩

/-- A binding has one name. -/
theorem Template.Formed.descendantsOf_name (h : Formed t) (hb : b ∈ t.nodes)
    (kind : b.kind = .propertyBinding) {q : Placed} (found : b.child? .attributeName = some q) :
    b.descendantsOf .attributeName = [q] := by
  obtain ⟨m, named, -, -, only⟩ := (h.shaped _ (Tree.toNode_mem hb)).exists_name kind
  have same : q.toNode = m := by
    have := b.map_toNode_child? .attributeName
    rw [found, named] at this
    exact Option.some.inj this
  have child := List.mem_of_find?_eq_some found
  have name := Placed.kind_of_child? found
  have mem : q ∈ b.descendantsOf .attributeName :=
    List.mem_filter.2 ⟨Content.mem_preorder_of_mem_siblings child, by simp [name]⟩
  -- every name below is `m` as a node, and identities tell where a node stands
  have all : ∀ x ∈ b.descendantsOf .attributeName, x = q := by
    intro x hx
    obtain ⟨below, name⟩ := List.mem_filter.1 hx
    have unique := only x.toNode (Content.toNode_mem_members below) (by simpa using name)
    exact h.numbered.eq_of_id_eq (Content.mem_preorder_of_mem_descendants hb below)
      (Tree.mem_nodes_of_mem_children hb child) (congrArg Node.id (unique.trans same.symm))
  have once : (b.descendantsOf .attributeName).Nodup := by
    refine List.Nodup.filter _ (List.Nodup.of_map (·.id) ?_)
    rw [Placed.descendants, Content.ids_preorder]
    exact (List.nodup_cons.1 (Content.nodup_of_mem h.numbered.nodup hb)).2
  generalize b.descendantsOf .attributeName = names at mem all once
  cases names with
  | nil => simp at mem
  | cons x rest =>
    obtain rfl := all x List.mem_cons_self
    have empty : rest = [] := List.eq_nil_iff_forall_not_mem.2 fun y hy => by
      obtain rfl := all y (List.mem_cons_of_mem _ hy)
      exact (List.nodup_cons.1 once).1 hy
    rw [empty]

/-- A diagnostic of a template is about a binding by a trigger. -/
theorem Template.Formed.names (on : i.Watches severity) (h : Formed t) (hd : d ∈ i.run t) :
    ∃ b ∈ t.nodes, ∃ name trigger, d.anchor.target = some b.id ∧ b.kind = .propertyBinding ∧
      b.descendantsOf .attributeName = [name] ∧ name.text = "@" ++ trigger := by
  obtain ⟨b, hb, reported, rfl⟩ := (Inspector.mem_run_iff on h.shaped h.language).1 hd
  have repairs := h.repairs severity hb reported
  have triggers := (h.shaped _ (Tree.toNode_mem hb)).triggers reported
  obtain ⟨m, named, text, -⟩ := triggers.name
  obtain ⟨q, found, rfl⟩ := Placed.exists_child? named
  exact ⟨b, hb, q, _, repairs.target, triggers.kind, h.descendantsOf_name hb triggers.kind found,
    text⟩

/-- A leaf has the text that it has in the rebound tree. -/
theorem Template.Formed.fixedText_eq (on : i.Watches severity) (h : Formed t) (hn : n ∈ t.nodes) :
    t.fixedText (i.run t) tidy n =
      (n.changeBelow (Formatter.spaceOf tidy) t.content.reported).getD n.text := by
  rw [Tree.fixedText, Node.changeBelow]
  by_cases below : t.InReach (i.run t) n
  · rw [if_pos below, if_pos ((Inspector.inReach_iff on h hn).1 below), Node.change]
    split
    · rfl
    · by_cases blank : n.kind = .whitespace
      · simp only [blank, if_true, true_and]
        exact (Formatter.getD_spaceOf tidy n.text).symm
      · simp [blank]
  · rw [if_neg below, if_neg (mt (Inspector.inReach_iff on h hn).2 below)]
    rfl

/-! ### The default inspector -/

namespace Rounds

/-- **Fixing a template** binds every trigger that is reported, in one round. -/
theorem fixed_fixAll {identity : TreeId} {source : String} (h : parse identity source = .ok t)
    (room : source.utf8ByteSize + 2 * (Inspector.default.run t).length < 2 ^ 32)
    (limit : Nat) (tidy : Bool) :
    let r := fixAll .default (.ofTidy tidy) limit t
    t.Fixed (Inspector.default.run t) tidy limit r ∧
      Inspector.default.run r.progress.tree = [] := by
  have on : Inspector.default.Watches .error := rfl
  have formed := formed_parse (by omega) h
  have hs := Formatter.oneSpace_spaceOf tidy
  have count := Inspector.length_run on formed
  rw [count, ← source_parse h] at room
  obtain ⟨ranges, fixed⟩ := fixAll_eq on (Formatter.spaces_ofTidy tidy) hs formed room limit
  have short := (formed.length_rebind_le hs).trans_lt room
  have clean := findings_of_nil on (formed.rebind hs short) (Tree.reported_rebind formed hs)
  dsimp only
  rw [fixed]
  refine ⟨⟨by rw [count], count.symm, fun d hd => formed.names on hd, ?_⟩, ?_⟩
  · rw [← Tree.retext_reported formed, Tree.leaves_retext formed.regular.isLeaf_of_changeBelow]
    refine List.map_congr_left fun n hn => ?_
    rw [formed.fixedText_eq on (List.mem_filter.1 hn).1]
  · simp [Inspector.run, clean, Findings.none, Diagnostic.sort]

/-- A template with one trigger that is given an expression. -/
theorem fixed_fixAll_of_trigger : ∃ t : Tree, parse 0 "<a @b  =\"c\">" = .ok t ∧
    (Inspector.default.run t).length = 1 ∧
    t.Fixed (Inspector.default.run t) true 3 (fixAll .default (.ofTidy true) 3 t) ∧
    Inspector.default.run (fixAll .default (.ofTidy true) 3 t).progress.tree = [] := by
  have evaluated : ((parse 0 "<a @b  =\"c\">").toOption.map fun t =>
      (Inspector.default.run t).length) = some 1 := by decide +kernel
  cases parsed : parse 0 "<a @b  =\"c\">" with
  | error e => rw [parsed] at evaluated; simp [Except.toOption] at evaluated
  | ok t =>
    rw [parsed] at evaluated
    have one : (Inspector.default.run t).length = 1 := by simpa [Except.toOption] using evaluated
    obtain ⟨fixed, clean⟩ := fixed_fixAll parsed (by rw [one]; decide +kernel) 3 true
    exact ⟨t, rfl, one, fixed, clean⟩

/-! ### Parsing the fixed text -/

/-- Nothing is found in a fixed template, nor in a copy of it. -/
theorem exists_formed_fixAll (hi : i.Stock) (h : Formed t)
    (room : t.source.utf8ByteSize + 2 * (i.run t).length < 2 ^ 32) (limit : Nat) (tidy : Bool) :
    ∃ u, (fixAll i (.ofTidy tidy) limit t).progress.tree = u ∧ Formed u ∧
      ∀ j, i.findings (u.copy j) = .none := by
  have hs := Formatter.oneSpace_spaceOf tidy
  rcases hi.matching with off | ⟨severity, on⟩
  · have nothing : ∀ u, Formed u → i.findings u = .none := fun u hu =>
      Inspector.findings_of_off off hu.language
    refine ⟨t, ?_, h, fun j => nothing _ (formed_parse h.short (h.again j))⟩
    rw [fixAll_of_none (nothing t h)]
    rfl
  · rw [Inspector.length_run on h] at room
    obtain ⟨ranges, fixed⟩ := fixAll_eq on (Formatter.spaces_ofTidy tidy) hs h room limit
    have rebound := h.rebind hs ((h.length_rebind_le hs).trans_lt room)
    refine ⟨t.rebind (Formatter.spaceOf tidy), by rw [fixed], rebound, fun j => ?_⟩
    exact findings_of_nil on (formed_parse rebound.short (rebound.again j))
      (Tree.reported_rebind h hs)

/-- **The text of a fixed template is parsed to the fixed tree**, in which nothing is left to fix,
whatever inspector there is. -/
theorem parse_source_fixAll {identity : TreeId} {source : String}
    (h : parse identity source = .ok t) (hi : i.Stock)
    (room : source.utf8ByteSize + 2 * (i.run t).length < 2 ^ 32) (limit : Nat) (tidy : Bool)
    (j : TreeId) :
    let u := (fixAll i (.ofTidy tidy) limit t).progress.tree
    ∃ v, parse j u.source = .ok v ∧ v.document = u.document ∧ v.nodes = u.nodes ∧
      i.run v = (i.run u).map (·.onTree j) ∧
      ∀ limit tidy, (fixAll i (.ofTidy tidy) limit v).progress.applied = 0 ∧
        (fixAll i (.ofTidy tidy) limit v).progress.tree.source = v.source := by
  obtain ⟨u, fixed, formed, clean⟩ := exists_formed_fixAll hi (formed_parse (by omega) h)
    (by rwa [source_parse h]) limit tidy
  have here : i.findings u = .none := clean u.identity
  dsimp only
  rw [fixed]
  refine ⟨u.copy j, formed.again j, rfl, rfl, ?_, fun limit tidy => ?_⟩
  · simp [Inspector.run, here, clean, Findings.none, Diagnostic.sort]
  · rw [fixAll_of_none (clean j)]
    exact ⟨rfl, rfl⟩

/-- A template with two triggers, one of which is given no expression. -/
theorem parse_source_fixAll_of_triggers : ∃ t : Tree,
    parse 0 "<a @b  =\"c\" @d=''>" = .ok t ∧ Inspector.default.Stock ∧
    (Inspector.default.run t).length = 1 ∧
    (fixAll .default (.ofTidy true) 3 t).progress.tree.source = "<a [@b] =\"c\" @d=''>" ∧
    ∃ v, parse 7 (fixAll .default (.ofTidy true) 3 t).progress.tree.source = .ok v ∧
      v.document = (fixAll .default (.ofTidy true) 3 t).progress.tree.document ∧
      v.nodes = (fixAll .default (.ofTidy true) 3 t).progress.tree.nodes := by
  have evaluated : ((parse 0 "<a @b  =\"c\" @d=''>").toOption.map fun t =>
      ((Inspector.default.run t).length,
        (fixAll .default (.ofTidy true) 3 t).progress.tree.source)) =
          some (1, "<a [@b] =\"c\" @d=''>") := by decide +kernel
  cases parsed : parse 0 "<a @b  =\"c\" @d=''>" with
  | error e => rw [parsed] at evaluated; simp [Except.toOption] at evaluated
  | ok t =>
    rw [parsed] at evaluated
    obtain ⟨one, text⟩ := Prod.mk.inj (Option.some.inj evaluated)
    obtain ⟨v, again, same, nodes, -⟩ :=
      parse_source_fixAll parsed (.inl rfl) (by rw [one]; decide +kernel) 3 true 7
    exact ⟨t, rfl, .inl rfl, one, text, v, again, same, nodes⟩

end Rounds

end SyntaxLint
