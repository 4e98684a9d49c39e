import SyntaxLint.Proofs.Fixing.Order
import SyntaxLint.Proofs.Template.Detached
import SyntaxLint.Proofs.Tree.Places

/-!
# Proofs — Fixing — bindings without values

The fix that removes a value cuts the source behind the name and leaves the binding with its name
alone.  It does not look at what stands behind the value, and what stands there joins the name.  So
the source is not always read as the tree any more: it is exactly if what stands behind the value
leaves the name alone.  All this is about sources whose end offsets reach.

* `Tree.Bared`: what the fix makes of a tree.
* `parse_given_none`, `detached_of_parse`: when the source is read so.
* `Template.apply_removeValue_parse`: the fix for a diagnostic of a template.
-/

namespace SyntaxLint

open Template Text

variable {t t' u : Tree} {b n p : Placed} {name : String} {rest : List Node} {d : Diagnostic}

/-! ### The tree after the fix -/

/-- What becomes of a tree when the value of the binding `b` is removed: what stands behind its
name `n` is cut, the binding is left with the name alone, and all that is not below it is kept and
stands where it stood or is moved up by what is cut. -/
structure Tree.Bared (t u : Tree) (b n : Placed) : Prop where
  spliced : t.Spliced u b (b.body.ids.erase n.id) ⟨n.span.stop, b.span.stop⟩ ""
  alone : u.node? b.id = some { b with body := Content.ofNodes [n.toNode] }
  places : ∀ m m', t.node? m.id = some m → u.node? m.id = some m' → m.id ∉ b.body.ids →
    m'.start = if m.start < b.span.stop then m.start else m.start - (b.span.stop - n.span.stop)

/-- The name of a binding, where it stands. -/
theorem Node.Binds.exists_placed (binds : b.Binds name rest) : ∃ n : Placed,
    b.child? .attributeName = some n ∧ n.body = .tail name ∧ n.start = b.start ∧
      b.body = Content.ofNodes (n.toNode :: rest) := by
  obtain ⟨id, body⟩ := binds.body
  refine ⟨⟨⟨id, .attributeName, .tail name⟩, b.start, some b.id⟩, ?_, rfl, rfl, body⟩
  simp [Placed.child?, Placed.children, body, Content.ofNodes, Content.siblings]

/-- What stands behind the name is cut. -/
theorem Placed.change_bare (hd : b.body.ids.Nodup) (leaf : n.body = .tail name)
    (first : n.start = b.start) (body : b.body = Content.ofNodes (n.toNode :: rest)) :
    b.Change b.body.bare (b.body.ids.erase n.id) ⟨n.span.stop, b.span.stop⟩ "" := by
  have bare : b.body.bare = .node "" n.id n.kind (.tail name) (.tail "") := by
    rw [body, Content.ofNodes, leaf, Content.bare]
  rw [Content.ofNodes, leaf] at body
  have ids : b.body.ids = n.id :: (Content.ofNodes rest).ids := by simp [body, Content.ids]
  have gone : b.body.ids.erase n.id = (Content.ofNodes rest).ids := by
    rw [ids, List.erase_cons_head]
  obtain ⟨out, -⟩ := List.nodup_cons.1 (ids ▸ hd)
  rw [gone, bare]
  constructor
  case splits =>
    refine ⟨name, (Content.ofNodes rest).text, "", ?_, by simp, ?_, ?_⟩
    · simp [Placed.text, body]
    · simp [Placed.span, leaf, first, Content.width]
    · simp [Placed.span, leaf, first, body, Content.width_eq, Nat.add_assoc]
  case below => exact fun id hid => ids ▸ List.mem_cons_of_mem _ hid
  case ids =>
    intro id
    rw [ids, List.mem_cons, Content.ids, Content.ids, Content.ids, List.append_nil,
      List.mem_singleton]
    exact ⟨fun e => ⟨.inl e, e ▸ out⟩, fun h => h.1.resolve_right h.2⟩
  case kept =>
    intro m hm keep place
    rw [Placed.descendants, body, Content.preorder] at hm
    rcases List.mem_append.1 hm with hm | hm
    · obtain rfl : m = _ := List.mem_singleton.1 hm
      exact ⟨_, List.mem_append_left _ List.mem_cons_self, ⟨rfl, rfl, rfl⟩, rfl⟩
    · exact absurd (Content.id_mem_ids hm) keep
  case children =>
    intro start parent
    have others : ∀ k ∈ (Content.ofNodes rest).siblings (b.start + (Content.tail name).width)
        (some b.id), k.id ∈ (Content.ofNodes rest).ids := fun k hk =>
      Content.id_mem_ids (Content.mem_preorder_of_mem_siblings hk)
    simpa [Placed.children, body, Content.siblings, out] using others

/-- **The tree that is left.** -/
theorem Tree.Numbered.bared (ht : t.Numbered) (hb : b ∈ t.nodes) (binds : b.Binds name rest) :
    ∃ n, b.child? .attributeName = some n ∧ n.text = name ∧
      t.Bared (t.alter b.id Content.bare) b n := by
  obtain ⟨n, named, leaf, first, body⟩ := binds.exists_placed
  have bare : b.body.bare = Content.ofNodes [n.toNode] := by rw [body, Content.bare_ofNodes]
  have hd := (List.nodup_cons.1 (Content.nodup_of_mem ht.nodup hb)).2
  have spliced := ht.spliced Content.ids_bare_sublist hb (Placed.change_bare hd leaf first body)
  have ht' : (t.alter b.id Content.bare).Numbered := ht.alter Content.ids_bare_sublist b.id
  have here := Content.changed_mem_alter (f := Content.bare) ht.nodup hb
  rw [← Tree.content_alter] at here
  refine ⟨n, named, by rw [Placed.text, leaf, Content.text_tail], spliced,
    bare ▸ ht'.node?_eq_some_iff.2 ⟨here, rfl⟩, fun m m' found found' out => ?_⟩
  obtain ⟨hm, -⟩ := ht.node?_eq_some_iff.1 found
  obtain ⟨hm', id⟩ := ht'.node?_eq_some_iff.1 found'
  obtain ⟨m'', hm'', same, place⟩ := Content.exists_carried ht.nodup hb hm out Content.bare
  rw [← Tree.content_alter] at hm''
  obtain rfl := ht'.eq_of_id_eq hm' hm'' (id.trans same.symm)
  have width : b.body.bare.width = n.body.width := by simp [bare, Content.ofNodes, Content.width]
  have shorter : n.body.width ≤ b.body.width := by simp [body, Content.ofNodes, Content.width]
  simp only [Placed.span, first] at place ⊢
  split <;> omega

/-! ### The source after the fix -/

/-- The source behind a node. -/
def Tree.behind (t : Tree) (p : Placed) : List Char :=
  (splitBytes p.span.stop t.source.toList).2

namespace Template

variable {identity j : TreeId} {source : String} {s : Site} {a : Attribute}

theorem toList_source_plant (items : List Item) (identity : TreeId) :
    ((plant items).tree identity).source.toList = items.flatMap Item.print := by
  rw [← chars_documentEvents, ← (finishes_documentEvents items).chars]
  exact congrArg String.toList (Tree.source_ofRoot identity _)

/-- The node of an attribute has the length of the attribute. -/
theorem Attribute.width_node (a : Attribute) (free : NodeId) :
    (a.node free).body.width = bytes a.print := by
  have adds := (Adds.token .attributeName (String.ofList a.name)).append a.assignment.adds_events
  refine (width_of_adds adds free).trans ?_
  simp [Event.chars, a.assignment.chars_events, Attribute.print]

/-- **A reported binding and its site**, and the tree in which it has its name alone. -/
theorem exists_site_of_isReported (short : source.utf8ByteSize < 2 ^ 32)
    (h : parse identity source = .ok t) (hb : b ∈ t.nodes) (reported : b.isReported = true) :
    ∃ (s : Site) (a : Attribute),
      scan source.toList = .ok (s.items a) ∧ AttributeName.isTrigger a.name = true ∧
      b.start = bytes s.head ∧ t.behind b = s.rest ∧
      (∀ n, b.child? .attributeName = some n → n.text.toList = a.name) ∧
      (t.alter b.id Content.bare).document =
        ((plant (s.items (a.given .none))).tree identity).document := by
  obtain ⟨items, read, rfl⟩ := (parse_eq_ok_iff_grow short).1 h
  obtain ⟨s, a, rfl, ⟨free, node⟩, start, swap⟩ :=
    exists_site hb (Node.kind_of_isReported reported)
  refine ⟨s, a, read, ?_, start, ?_, fun n named => ?_,
    swap .none Content.bare fun free free' => rfl⟩
  · rw [node, a.isReported_node] at reported
    exact (Bool.and_eq_true_iff.1 reported).1
  · have width : b.body.width = bytes a.print := by rw [node, a.width_node]
    rw [Tree.behind, toList_source_plant, s.print_items, Placed.span, start, width, ← bytes_append,
      splitBytes_bytes_append]
  · have found := b.map_toNode_child? .attributeName
    rw [named, node, Attribute.node, Content.child?_ofNodes, find?_attributeName,
      Option.map_some, Option.some.injEq] at found
    rw [Placed.text, found, Content.text_tail, String.toList_ofList]

/-- **The template with a name alone**, where what follows leaves it alone. -/
theorem parse_given_none (h : scan source.toList = .ok (s.items a))
    (trigger : AttributeName.isTrigger a.name = true) (alone : Detached a.name s.rest)
    (short : (String.ofList (s.head ++ a.name ++ s.rest)).utf8ByteSize < 2 ^ 32) (j : TreeId) :
    parse j (String.ofList (s.head ++ a.name ++ s.rest)) =
      .ok ((plant (s.items (a.given .none))).tree j) := by
  have read := s.scan_given h (standsFor_given_none trigger alone)
  have printed : (a.given .none).print = a.name := List.append_nil a.name
  rw [s.print_items, printed] at read
  exact (parse_eq_ok_iff_grow short).2 ⟨_, by rwa [String.toList_ofList], rfl⟩

/-- Texts are told by their lengths where they begin alike. -/
theorem append_inj_of_bytes {as bs cs ds : List Char} (h : as ++ cs = bs ++ ds)
    (same : bytes as = bytes bs) : as = bs ∧ cs = ds := by
  have split := splitBytes_bytes_append as cs
  rw [h, same, splitBytes_bytes_append] at split
  exact ⟨(Prod.mk.inj split).1.symm, (Prod.mk.inj split).2.symm⟩

/-- An attribute of plain characters has no value. -/
theorem Attribute.eq_of_isPlain (plain : IsPlain a.print) : a = ⟨a.print, .none⟩ := by
  obtain ⟨name, b⟩ := a
  have none : '=' ∉ b.print := fun mem =>
    (plain '=' (List.mem_append_right name mem)).2 List.mem_cons_self
  cases b with
  | none => simp [print, Assignment.print]
  | equals gap => simp [Assignment.print] at none
  | value gap inner v => simp [Assignment.print] at none

/-- **A binding that is a name alone** in the tree of a template: what follows leaves it alone. -/
theorem detached_of_parse {head name rest : List Char} (plain : IsPlain name)
    (short : (String.ofList (head ++ name ++ rest)).utf8ByteSize < 2 ^ 32)
    (h : parse j (String.ofList (head ++ name ++ rest)) = .ok t) (hp : p ∈ t.nodes)
    (binding : p.kind = .propertyBinding)
    (place : p.span = ⟨bytes head, bytes head + bytes name⟩) : Detached name rest := by
  obtain ⟨items, read, rfl⟩ := (parse_eq_ok_iff_grow short).1 h
  obtain ⟨s, a, rfl, ⟨free, node⟩, start, -⟩ := exists_site hp binding
  have width : p.body.width = bytes a.print := by rw [node, a.width_node]
  obtain ⟨first, last⟩ := Span.mk.inj place
  have text : s.head ++ a.print ++ s.rest = head ++ name ++ rest := by
    rw [← s.print_items, ← toList_source_plant _ j, source_parse h, String.toList_ofList]
  simp only [List.append_assoc] at text
  -- the attribute that is read there begins and ends with the name, so it is the name alone
  obtain ⟨-, text⟩ := append_inj_of_bytes text (start.symm.trans first)
  obtain ⟨rfl, behind⟩ := append_inj_of_bytes text (by omega)
  rw [detached_iff plain, ← behind, ← Attribute.eq_of_isPlain plain]
  exact s.scanAttribute_rest read

/-- **When the source is read as the tree** in which a binding has its name alone. -/
theorem exists_parse_alter_bare_iff (short : source.utf8ByteSize < 2 ^ 32)
    (h : parse identity source = .ok t) (hb : b ∈ t.nodes) (reported : b.isReported = true)
    (named : b.child? .attributeName = some n)
    (bared : t.Bared (t.alter b.id Content.bare) b n) (j : TreeId) :
    (∃ t', parse j (t.alter b.id Content.bare).source = .ok t' ∧
        t'.document = (t.alter b.id Content.bare).document) ↔
      Detached n.text.toList (t.behind b) := by
  obtain ⟨s, a, read, trigger, start, behind, name, made⟩ :=
    exists_site_of_isReported short h hb reported
  have printed : (a.given .none).print = a.name := List.append_nil a.name
  have text : (t.alter b.id Content.bare).source = String.ofList (s.head ++ a.name ++ s.rest) := by
    have same := congrArg (fun x : Document => x.source.toList) made
    simp only [Tree.document, toList_source_plant, s.print_items, printed] at same
    rw [← same, String.ofList_toList]
  have shorter : (String.ofList (s.head ++ a.name ++ s.rest)).utf8ByteSize < 2 ^ 32 := by
    rw [← text]
    exact ((numbered_parse h).length_alter_bare_le hb).trans_lt (source_parse h ▸ short)
  rw [name n named, behind, text, made]
  constructor
  · -- in the tree that is read a binding stands where this one stands in the other, as long as it
    rintro ⟨t', again, same⟩
    have here := List.mem_of_find?_eq_some bared.alone
    obtain ⟨p, hp, kind, span⟩ := Tree.exists_mem_of_document (made.trans same.symm) here
    obtain ⟨tail, ends, -⟩ := exists_of_scanAttribute (s.scanAttribute_rest read)
    have binding : b.kind = .propertyBinding := Node.kind_of_isReported reported
    refine detached_of_parse (isPlain_of_spanUntil ends) shorter again hp (kind.trans binding)
      (span.trans ?_)
    have width : n.body.width = bytes a.name := by
      rw [← name n named, bytes_toList, Content.width_eq, Placed.text]
    simp [Placed.span, Content.ofNodes, Content.width, start, width]
  · intro alone
    exact ⟨_, parse_given_none read trigger alone shorter j, rfl⟩

/-! ### Templates -/

/-- The source after the value of the first trigger is removed, and whether it is read as the tree
after that. -/
def firstRemoval (t : Tree) : Option (String × Bool) :=
  (t.nodes.find? (·.isReported)).map fun b =>
    let d := (AnimationTrigger.reporter t .error).assigned b
    let u := (Fix.removeValue.apply (.ofTidy true) t d.anchor).tree
    (u.source, (parse 0 u.source).toOption.any (·.document == u.document))

theorem exists_of_firstRemoval {text : String} {again : Bool}
    (short : source.utf8ByteSize < 2 ^ 32)
    (h : (parse 0 source).toOption.bind firstRemoval = some (text, again)) : ∃ t d,
      parse 0 source = .ok t ∧ d ∈ Inspector.default.run t ∧
        (Fix.removeValue.apply (.ofTidy true) t d.anchor).tree.source = text ∧
        (again = true ↔
          ∃ t', parse 0 (Fix.removeValue.apply (.ofTidy true) t d.anchor).tree.source = .ok t' ∧
            t'.document = (Fix.removeValue.apply (.ofTidy true) t d.anchor).tree.document) := by
  cases parsed : parse 0 source with
  | error e => simp [parsed, Except.toOption] at h
  | ok t =>
    have on : Inspector.default.Watches .error := rfl
    have formed := formed_parse short parsed
    rw [parsed] at h
    obtain ⟨b, found, evaluated⟩ := Option.map_eq_some_iff.1 h
    obtain ⟨rfl, rfl⟩ := Prod.mk.inj evaluated
    have mem := (Inspector.mem_run_iff on formed.shaped formed.language).2
      ⟨b, List.mem_of_find?_eq_some found, by simpa using List.find?_some found, rfl⟩
    refine ⟨t, _, rfl, mem, rfl, ?_⟩
    cases parse 0 _ with
    | error e => simp [Except.toOption]
    | ok t' => simp [Except.toOption]

/-- **Removing the value of a trigger for a diagnostic of a template**: the fix is offered and
applied, and it leaves the binding with its name alone and all else as it was.  The source is read
as that tree again exactly if what stood behind the value leaves the name alone. -/
theorem apply_removeValue_parse (short : source.utf8ByteSize < 2 ^ 32)
    (h : parse identity source = .ok t) (hd : d ∈ Inspector.default.run t) (tidy : Bool)
    (j : TreeId) :
    ∃ b n u span ranges, b ∈ t.nodes ∧ d.anchor.target = some b.id ∧
      b.child? .attributeName = some n ∧ .removeValue ∈ d.fixes ∧
      Fix.removeValue.apply (.ofTidy tidy) t d.anchor = ⟨.ok (.applied span), u, ranges, []⟩ ∧
      t.Bared u b n ∧
      ((∃ t', parse j u.source = .ok t' ∧ t'.document = u.document) ↔
        Detached n.text.toList (t.behind b)) := by
  have on : Inspector.default.Watches .error := rfl
  have formed := formed_parse short h
  obtain ⟨b, hb, reported, rfl⟩ := (Inspector.mem_run_iff on formed.shaped formed.language).1 hd
  have repairs := formed.repairs .error hb reported
  obtain ⟨rest, binds, value⟩ := (formed.shaped _ (Tree.toNode_mem hb)).binds reported
  obtain ⟨n, named, -, bared⟩ := formed.numbered.bared hb binds
  obtain ⟨span, range, applied⟩ := Fix.apply_removeValue (Formatter.spaces_ofTidy tidy)
    formed.regular formed.short hb binds value repairs.tree repairs.target
  exact ⟨b, n, _, span, _, hb, repairs.target, named,
    List.mem_cons_of_mem _ List.mem_cons_self, applied, bared,
    exists_parse_alter_bare_iff short h hb reported named bared j⟩

/-- A blank behind the value. -/
theorem apply_removeValue_parse_of_blank : ∃ t d b n u span ranges,
    parse 0 "<p @a=\"b\" c>" = .ok t ∧ d ∈ Inspector.default.run t ∧
      Fix.removeValue.apply (.ofTidy true) t d.anchor = ⟨.ok (.applied span), u, ranges, []⟩ ∧
      t.Bared u b n ∧ u.source = "<p @a c>" ∧ Detached n.text.toList (t.behind b) ∧
      ∃ t', parse 0 u.source = .ok t' ∧ t'.document = u.document := by
  have evaluated : (parse 0 "<p @a=\"b\" c>").toOption.bind firstRemoval =
      some ("<p @a c>", true) := by decide +kernel
  have short : "<p @a=\"b\" c>".utf8ByteSize < 2 ^ 32 := by decide +kernel
  obtain ⟨t, d, parsed, hd, text, again⟩ := exists_of_firstRemoval short evaluated
  obtain ⟨b, n, u, span, ranges, -, -, -, -, applied, bared, iff⟩ :=
    apply_removeValue_parse short parsed hd true 0
  rw [applied] at text again
  exact ⟨t, d, b, n, u, span, ranges, parsed, hd, applied, bared, text, iff.1 (again.1 rfl),
    again.1 rfl⟩

/-- An attribute right behind the value: the names are joined, and the source is read otherwise. -/
theorem not_reread_of_joined : ∃ t d, parse 0 "<p @a=\"b\"c>" = .ok t ∧
    d ∈ Inspector.default.run t ∧
      (Fix.removeValue.apply (.ofTidy true) t d.anchor).tree.source = "<p @ac>" ∧
      ¬∃ t', parse 0 (Fix.removeValue.apply (.ofTidy true) t d.anchor).tree.source = .ok t' ∧
        t'.document = (Fix.removeValue.apply (.ofTidy true) t d.anchor).tree.document := by
  have evaluated : (parse 0 "<p @a=\"b\"c>").toOption.bind firstRemoval =
      some ("<p @ac>", false) := by decide +kernel
  obtain ⟨t, d, parsed, hd, text, again⟩ := exists_of_firstRemoval (by decide +kernel) evaluated
  exact ⟨t, d, parsed, hd, text, fun same => by simpa using again.2 same⟩

end Template

end SyntaxLint
