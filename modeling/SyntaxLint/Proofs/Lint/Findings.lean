import SyntaxLint.Lint.Inspector
import SyntaxLint.Proofs.Template.Names
import SyntaxLint.Proofs.Template.Reported

/-!
# Proofs — Linting — findings in templates

The walk for animation triggers finds the reported bindings of a template, each once and in order,
and skips no node.  An inspector reports these and nothing else, unless its settings turn the
inspection off.

* `Reporter.assigned`: what is reported at a binding.
* `Content.walk_visitor`: what the walk of a run finds.
* `Inspector.findings_eq`, `Inspector.mem_run_iff`: what an inspector finds in a template.
-/

namespace SyntaxLint

open Template

/-! ### Attribute names -/

namespace AttributeName

variable {name : List Char}

/-- Only a trigger binds a property by a name that begins with `@`. -/
theorem isTrigger_of_head (kind : kindOf name = .propertyBinding) (head : name.head? = some '@') :
    isTrigger name = true := by
  obtain ⟨rest, rfl⟩ : ∃ rest, name = '@' :: rest := by
    cases name with
    | nil => simp at head
    | cons c rest =>
      obtain rfl : c = '@' := by simpa using head
      exact ⟨rest, rfl⟩
  cases rest with
  | cons c rest => rfl
  | nil => exact absurd kind (by decide)

/-- A binding is checked if its name is a trigger. -/
theorem checked_eq_isTrigger (kind : kindOf name = .propertyBinding) :
    (decide ((bindingOf name).1 = .animation) && name.head? == some '@') = isTrigger name := by
  cases trigger : isTrigger name with
  | true =>
    unfold isTrigger at trigger
    split at trigger
    · simp [bindingOf_trigger]
    · simp at trigger
  | false =>
    have other : name.head? ≠ some '@' := fun head => by
      rw [isTrigger_of_head kind head] at trigger
      simp at trigger
    simp [other]

end AttributeName

variable {c : Content} {n m : Node} {p : Placed} {r : Reporter} {f : Findings}

/-! ### Children -/

theorem Content.map_toNode_child? (c : Content) (kind : Kind) (start : Nat)
    (parent : Option NodeId) :
    ((c.siblings start parent).find? (·.kind == kind)).map (·.toNode) = c.child? kind := by
  induction c generalizing start with
  | tail s => rfl
  | node gap id k body next _ ihn =>
    rw [siblings, child?, List.find?_cons]
    by_cases e : k = kind
    · simp [e]
    · have ne : (k == kind) = false := by simpa using e
      simp only [ne, e, if_false]
      exact ihn _

theorem Placed.map_toNode_child? (p : Placed) (kind : Kind) :
    (p.child? kind).map (·.toNode) = p.body.child? kind :=
  p.body.map_toNode_child? kind p.start (some p.id)

/-- A child of a node is found where it stands. -/
theorem Placed.exists_child? {kind : Kind} (h : p.body.child? kind = some m) :
    ∃ q, p.child? kind = some q ∧ q.toNode = m := by
  rw [← p.map_toNode_child?] at h
  simpa using h

/-- The name of a binding in a template, its only one. -/
theorem Template.Shaped.exists_name (hs : Shaped n) (kind : n.kind = .propertyBinding) :
    ∃ m, n.body.child? .attributeName = some m ∧ m.body.isLeaf = true ∧
      AttributeName.kindOf m.body.text.toList = .propertyBinding ∧
      ∀ k ∈ n.body.members, k.kind = .attributeName → k = m := by
  obtain ⟨a, free, rfl⟩ := hs.binding kind
  refine ⟨⟨free, .attributeName, .tail (String.ofList a.name)⟩, ?_, rfl, ?_, fun k hk e => ?_⟩
  · rw [Attribute.node, Content.child?_ofNodes, find?_attributeName]
  · have kind : AttributeName.kindOf a.name = .propertyBinding := kind
    simpa using kind
  · rcases a.members_node free hk with rfl | inner
    · rfl
    · exact absurd e inner.name

/-! ### One binding -/

/-- The trigger that a binding is made by. -/
def Node.trigger (n : Node) : String :=
  (AttributeName.binding (((n.body.child? .attributeName).map (·.body.text)).getD "")).2

/-- What is reported at a binding. -/
def Reporter.assigned (r : Reporter) (b : Placed) : Diagnostic :=
  r.diagnostic ((b.child? .attributeValue).getD b) AnimationTrigger.message
    [.rename b.trigger, .removeValue]

/-- The first name of an attribute is its name. -/
theorem View.nameElement_eq_ok_iff {k : Kind} {v : View k} :
    v.nameElement = .ok p ↔ v.node.child? .attributeName = some p := by
  rw [nameElement, Placed.required]
  cases v.node.child? .attributeName <;> simp

theorem View.name_of_child? {k : Kind} {v : View k}
    (found : v.node.child? .attributeName = some p) : v.name = .ok p.text := by
  rw [name, nameElement_eq_ok_iff.2 found]
  rfl

/-- Whether a value is an expression. -/
theorem AttributeValue.isEmpty_text (v : AttributeValue) :
    v.text.isEmpty = !(v.node.body.child? .valueText).any fun m => m.body.text != "" := by
  rw [text, ← v.node.map_toNode_child?]
  cases v.node.child? .valueText with
  | none => rfl
  | some m =>
    rw [Bool.eq_iff_iff]
    simp [Placed.text]

/-- **A binding is reported as its node tells.** -/
theorem AnimationTrigger.check_eq (r : Reporter) (b : PropertyBinding)
    (hs : Shaped b.node.toNode) (f : Findings) :
    check r b f =
      (if b.node.isReported then f.register (r.assigned b.node) else f, .ok ()) := by
  obtain ⟨m, named, -, kind, -⟩ := hs.exists_name b.kind_eq
  obtain ⟨q, found, rfl⟩ := Placed.exists_child? named
  have name := View.name_of_child? found
  have checked : (decide ((AttributeName.binding q.text).1 = .animation) &&
      q.text.toList.head? == some '@') = AttributeName.isTrigger q.text.toList :=
    AttributeName.checked_eq_isTrigger kind
  have trigger : b.node.trigger = (AttributeName.binding q.text).2 := by
    rw [Node.trigger, named]
    rfl
  have reported : b.node.isReported = (AttributeName.isTrigger q.text.toList &&
      ((b.node.child? .attributeValue).bind (·.body.child? .valueText)).any
        fun m => m.body.text != "") := by
    rw [Node.isReported, named, ← b.node.map_toNode_child? .attributeValue, b.kind_eq]
    cases b.node.child? .attributeValue <;> simp [Placed.text]
  simp only [check, finding, PropertyBinding.bindingType, PropertyBinding.propertyName, name,
    Except.map, bind, Except.bind, pure, Except.pure, checked, reported]
  cases AttributeName.isTrigger q.text.toList with
  | false => simp
  | true =>
    cases value : b.node.child? .attributeValue with
    | none => simp [View.valueElement?, value]
    | some v =>
      have kind := Placed.kind_of_child? value
      have viewed : View.valueElement? b = some ⟨v, kind⟩ := by
        simp [View.valueElement?, value, View.of?, kind]
      have expression := AttributeValue.isEmpty_text ⟨v, kind⟩
      rw [viewed]
      simp only [if_true, expression, Option.bind_some, Bool.true_and]
      cases (v.body.child? .valueText).any fun m => m.body.text != "" with
      | false => simp
      | true => simp [Reporter.report, Reporter.assigned, trigger, value]

/-! ### Walks -/

/-- What reports on a tree for the inspection. -/
def AnimationTrigger.reporter (t : Tree) (severity : Severity) : Reporter :=
  ⟨t, inspection.id, severity⟩

/-- What one pass of the inspection finds below a run, added to what was found before. -/
def Findings.add (f : Findings) (r : Reporter) (ns : List Placed) : Findings :=
  f.more ((ns.filter (·.isReported)).map r.assigned) []

theorem Findings.add_append (f : Findings) (r : Reporter) (ns ms : List Placed) :
    f.add r (ns ++ ms) = (f.add r ns).add r ms := by
  simp [Findings.add]

theorem Findings.add_of_not_reported {ns : List Placed}
    (h : ∀ n ∈ ns, n.kind ≠ .propertyBinding) : f.add r ns = f := by
  have none : ns.filter (·.isReported) = [] :=
    List.filter_eq_nil_iff.2 fun n hn => by simp [Node.isReported_of_kind (h n hn)]
  simp [Findings.add, none]

/-- The visitor has no callback but that for bindings. -/
theorem AnimationTrigger.callback_of_ne (kind : p.kind ≠ .propertyBinding) :
    (visitor r).callback p.kind p f = (f, .descend) := by
  unfold Visitor.callback
  split
  · have none : (visitor r).production p.kind = none := by simp only [visitor]
    rw [none]
    rfl
  · rfl

/-- What the walk of the inspection finds at a node, given what it finds below. -/
theorem AnimationTrigger.visit_visitor (hs : Shaped p.toNode) {below : Findings → Findings × Flow}
    (h : ∀ f, below f = (f.add r p.descendants, .go)) :
    (visitor r).visit p below f = (f.add r p.preorder, .go) := by
  suffices told : (visitor r).dispatch p below f = (f.add r p.preorder, .go) by
    have entered : (visitor r).enter p f = (f, .go) := rfl
    rw [Visitor.visit, entered]
    simp only [told]
    rfl
  rw [Visitor.dispatch, Placed.preorder, ← List.singleton_append, Findings.add_append]
  by_cases token : p.kind.isToken = true
  · have leaf : p.descendants = [] := Content.preorder_of_isLeaf (hs.token token) _ _
    have kind : ∀ n ∈ [p], n.kind ≠ .propertyBinding := by
      intro n hn e
      obtain rfl := List.mem_singleton.1 hn
      simp [e, Kind.isToken] at token
    rw [if_pos token, leaf, Findings.add_of_not_reported kind]
    simp [Findings.add, visitor, Visitor.silent]
  · rw [if_neg token]
    by_cases kind : p.kind = .propertyBinding
    · -- the walk does not go below a binding, where there are no others
      have nothing : ∀ f : Findings, f.add r p.descendants = f := fun f =>
        Findings.add_of_not_reported fun n hn => hs.below kind (Content.toNode_mem_members hn)
      have called : (visitor r).callback p.kind p f =
          (r.check p (check r ⟨p, kind⟩) f, .skip) := by
        simp [Visitor.callback, visitor, kind, Kind.language, View.of?]
      rw [called, nothing, Reporter.check, check_eq r ⟨p, kind⟩ hs f]
      by_cases reported : p.isReported = true
      · simp [Findings.add, Findings.register_eq, reported]
      · simp [Findings.add, reported]
    · have kinds : ∀ n ∈ [p], n.kind ≠ .propertyBinding := by
        intro n hn
        obtain rfl := List.mem_singleton.1 hn
        exact kind
      rw [callback_of_ne kind, Findings.add_of_not_reported kinds]
      exact h f

/-- **The walk of a run finds the reported bindings of the run**, in order. -/
theorem Content.walk_visitor (hs : ∀ n ∈ c.members, Shaped n) (start : Nat)
    (parent : Option NodeId) (f : Findings) :
    c.walk (AnimationTrigger.visitor r) start parent f =
      (f.add r (c.preorder start parent), .go) := by
  induction c generalizing start parent f with
  | tail s => simp [walk, preorder, Findings.add]
  | node gap id kind body next ihb ihn =>
    simp only [members, List.cons_append, List.mem_cons, List.mem_append] at hs
    have ihb := ihb fun n hn => hs n (.inr (.inl hn))
    have ihn := ihn fun n hn => hs n (.inr (.inr hn))
    have here := AnimationTrigger.visit_visitor (r := r) (f := f)
      (p := ⟨⟨id, kind, body⟩, start + gap.utf8ByteSize, parent⟩) (hs _ (.inl rfl)) (ihb _ _)
    rw [walk, here]
    simp only [ihn]
    rw [preorder, ← Findings.add_append]
    rfl

/-! ### Inspectors -/

namespace Inspector

variable {t : Tree} {i : Inspector} {severity : Severity}

/-- The inspectors that there are: the default one and those of settings. -/
def Stock (i : Inspector) : Prop := i = default ∨ ∃ settings, ofSettings settings = .ok i

/-- An inspector looks for animation triggers in templates, reports them at a severity, and looks
for nothing else there. -/
def Watches (i : Inspector) (severity : Severity) : Prop :=
  i.matching .template = [⟨AnimationTrigger.inspection, severity⟩]

theorem inspection_of_registered? {settings : Settings} {inspection : Inspection} {x : Registered}
    (h : registered? settings inspection = some x) : x.inspection = inspection := by
  unfold registered? at h
  split at h
  · split at h
    · obtain rfl := Option.some.inj h
      rfl
    · simp at h
  · obtain rfl := Option.some.inj h
    rfl

/-- An inspector looks for animation triggers in templates and for nothing else, or for nothing at
all. -/
theorem Stock.matching (h : i.Stock) :
    i.matching .template = [] ∨ ∃ severity, i.Watches severity := by
  rcases h with rfl | ⟨settings, made⟩
  · exact .inr ⟨.error, rfl⟩
  · have listed : i.registered = Inspection.builtin.filterMap (registered? settings) := by
      unfold ofSettings at made
      split at made
      · simp at made
      · obtain rfl := Except.ok.inj made
        rfl
    -- the other inspection is for rules, whatever the settings say of it
    have enums : (registered? settings EmptyEnum.inspection).toList.filter
        (·.inspection.language == .template) = [] := by
      refine List.filter_eq_nil_iff.2 fun x hx => ?_
      rw [inspection_of_registered? (Option.mem_toList.1 hx)]
      simp [EmptyEnum.inspection]
    have both : Inspection.builtin.filterMap (registered? settings) =
        (registered? settings AnimationTrigger.inspection).toList ++
          (registered? settings EmptyEnum.inspection).toList := by
      simp only [Inspection.builtin, List.filterMap_cons, List.filterMap_nil]
      cases registered? settings AnimationTrigger.inspection <;>
        cases registered? settings EmptyEnum.inspection <;> rfl
    have split : i.matching .template =
        (registered? settings AnimationTrigger.inspection).toList.filter
          (·.inspection.language == .template) := by
      rw [Inspector.matching, listed, both, List.filter_append, enums, List.append_nil]
    cases triggers : registered? settings AnimationTrigger.inspection with
    | none =>
      rw [split, triggers]
      exact .inl rfl
    | some x =>
      obtain ⟨inspection, severity⟩ := x
      obtain rfl := inspection_of_registered? triggers
      rw [triggers] at split
      exact .inr ⟨severity, split⟩

/-- The walk of a tree is that of its content. -/
theorem walk_top {σ : Type} (t : Tree) (v : Visitor σ) (s : σ) :
    t.top.walk v s = t.content.walk v 0 none s := by
  obtain ⟨identity, before, ⟨id, kind, body⟩, after⟩ := t
  simp only [Tree.content, Tree.top, Content.walk, Placed.walk, Nat.zero_add]
  split <;> assumption

/-- What an inspector finds in a template when it looks for nothing there. -/
theorem findings_of_off (off : i.matching .template = [])
    (root : t.root.kind.language = .template) : i.findings t = .none := by
  have language : t.top.kind.language = .template := root
  rw [findings, inspect, language, off, List.foldl_nil]

/-- What an inspector finds in a template. -/
theorem findings_eq (on : i.Watches severity)
    (hs : ∀ n ∈ t.content.members, Shaped n) (root : t.root.kind.language = .template) :
    i.findings t = Findings.none.add (AnimationTrigger.reporter t severity) t.nodes := by
  have language : t.top.kind.language = .template := root
  have on : i.matching .template = [⟨AnimationTrigger.inspection, severity⟩] := on
  rw [findings, inspect, language, on, List.foldl_cons, List.foldl_nil, Registered.inspect,
    walk_top]
  exact congrArg Prod.fst (Content.walk_visitor hs 0 none .none)

/-- The diagnostics of a template are those of its reported bindings. -/
theorem mem_run_iff (on : i.Watches severity) (hs : ∀ n ∈ t.content.members, Shaped n)
    (root : t.root.kind.language = .template) {d : Diagnostic} :
    d ∈ i.run t ↔ ∃ b ∈ t.nodes, b.isReported = true ∧
      d = (AnimationTrigger.reporter t severity).assigned b := by
  have found := findings_eq on hs root
  rw [run, found, Diagnostic.sort, (List.mergeSort_perm _ _).mem_iff]
  simp only [Findings.add, Findings.more, Findings.none, List.nil_append, List.mem_map,
    List.mem_filter]
  constructor
  · rintro ⟨b, ⟨hb, reported⟩, rfl⟩
    exact ⟨b, hb, reported, rfl⟩
  · rintro ⟨b, hb, reported, rfl⟩
    exact ⟨b, ⟨hb, reported⟩, rfl⟩

/-- A diagnostic of a template is shown at a binding or at the value of one. -/
theorem Stock.exists_anchor (h : i.Stock) (hs : ∀ n ∈ t.content.members, Shaped n)
    (root : t.root.kind.language = .template) {d : Diagnostic} (hd : d ∈ i.run t) :
    ∃ n ∈ t.nodes, d.anchor.node = n.id ∧
      (n.kind = .attributeValue ∨ n.kind = .propertyBinding) := by
  rcases h.matching with off | ⟨severity, on⟩
  · simp [run, findings_of_off off root, Findings.none, Diagnostic.sort] at hd
  · obtain ⟨b, hb, reported, rfl⟩ := (mem_run_iff on hs root).1 hd
    cases value : b.child? .attributeValue with
    | none =>
      refine ⟨b, hb, ?_, .inr (Node.kind_of_isReported reported)⟩
      simp [Reporter.assigned, Reporter.diagnostic, Anchor.at, value]
    | some v =>
      have kind := Placed.kind_of_child? value
      refine ⟨v, Tree.mem_nodes_of_mem_children hb (List.mem_of_find?_eq_some value), ?_, .inl kind⟩
      simp [Reporter.assigned, Reporter.diagnostic, Anchor.at, value]

end Inspector

end SyntaxLint
