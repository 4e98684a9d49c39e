import SyntaxLint.Lint.Inspector
import SyntaxLint.Proofs.Fixing.Reachable
import SyntaxLint.Proofs.Lint.Checks
import SyntaxLint.Proofs.Lint.Findings

/-!
# Proofs — Linting — what a pass reports

A pass over any node of any tree there is, however its grammar is broken or mixed, reports a
diagnostic for each outermost node that the inspection for its language finds fault with, in
pre-order, and nothing else; and it notes each outermost node that lacks the child it is known by.

* `AnimationTrigger.Assigns`, `EmptyEnum.Lacks`: what the inspections find fault with.
* `AnimationTrigger.Due`, `EmptyEnum.Due`: the diagnostics due at a node.
* `Inspector.reports_of_reachable`: what a pass reports.
-/

namespace SyntaxLint

/-- A diagnostic at a child. -/
theorem Reporter.diagnostic_of_child? {r : Reporter} {n m : Placed} {kind : Kind}
    (found : n.child? kind = some m) (message : String) (fixes : List Fix) :
    r.diagnostic m message fixes = ⟨r.inspection, message, r.severity,
      ⟨r.tree.identity, m.id, kind, m.span, some n.id⟩, some (r.tree.location m.span), fixes⟩ := by
  have parent : m.parent = some n.id :=
    Content.parent_of_mem_siblings (Placed.mem_of_child? found)
  rw [diagnostic, Anchor.at, Placed.kind_of_child? found, parent]

/-! ### Animation triggers -/

namespace AttributeName

theorem head?_eq_iff {name : String} : name.toList.head? = some '@' ↔ ∃ s, name = "@" ++ s := by
  constructor
  · intro head
    cases chars : name.toList with
    | nil => simp [chars] at head
    | cons c rest =>
      obtain rfl : c = '@' := by simpa [chars] using head
      exact ⟨String.ofList rest, String.toList_inj.1 (by simp [chars])⟩
  · rintro ⟨s, rfl⟩
    simp

end AttributeName

namespace AnimationTrigger

variable {r : Reporter} {n : Placed} {b : PropertyBinding} {trigger : String}

/-- A binding assigns an expression to a trigger: its first name is `@trigger`, and the first text
of its first value is not empty. -/
structure Assigns (b : Placed) (trigger : String) (value : Placed) : Prop where
  named : ∃ m, b.child? .attributeName = some m ∧ m.text = "@" ++ trigger
  valued : b.child? .attributeValue = some value
  filled : ∃ m, value.child? .valueText = some m ∧ m.text ≠ ""

theorem text_isEmpty_iff (v : AttributeValue) :
    v.text.isEmpty = false ↔ ∃ m, v.node.child? .valueText = some m ∧ m.text ≠ "" := by
  rw [AttributeValue.text]
  cases v.node.child? .valueText <;> simp

theorem name_eq_error (missing : b.node.child? .attributeName = none) :
    finding b = .error ⟨b.node.kind, b.node.span, .attributeName⟩ := by
  have name : b.name = .error ⟨b.node.kind, b.node.span, .attributeName⟩ := by
    simp [View.name, View.nameElement, Placed.required, missing, Except.map]
  simp [finding, PropertyBinding.bindingType, name, Except.map, bind, Except.bind]

theorem finding_of_ne {m : Placed} (found : b.node.child? .attributeName = some m)
    (ne : ∀ s, m.text ≠ "@" ++ s) : finding b = .ok none := by
  have name := View.name_of_child? found
  have head : ¬ m.text.toList.head? = some '@' := fun head =>
    (AttributeName.head?_eq_iff.1 head).elim ne
  simp [finding, PropertyBinding.bindingType, name, head, Except.map, bind, Except.bind, pure,
    Except.pure]

theorem finding_of_eq {m : Placed} (found : b.node.child? .attributeName = some m)
    (eq : m.text = "@" ++ trigger) :
    finding b = .ok ((b.valueElement?.filter (!·.text.isEmpty)).map (·, trigger)) := by
  have name : b.name = .ok ("@" ++ trigger) := eq ▸ View.name_of_child? found
  simp only [finding, PropertyBinding.bindingType, PropertyBinding.propertyName, name, Except.map,
    AttributeName.binding_trigger, bind, Except.bind, pure, Except.pure]
  cases b.valueElement? with
  | none => simp
  | some v => cases filled : v.text.isEmpty <;> simp [filled, Option.filter]

/-- A check ends at a binding without a name. -/
theorem finding_eq_error_iff {cause : MissingChild} :
    finding b = .error cause ↔ b.node.child? .attributeName = none ∧
      cause = ⟨b.node.kind, b.node.span, .attributeName⟩ := by
  cases found : b.node.child? .attributeName with
  | none => simp [name_eq_error found, eq_comm]
  | some m =>
    by_cases starts : ∃ s, m.text = "@" ++ s
    · obtain ⟨s, eq⟩ := starts
      simp [finding_of_eq found eq]
    · simp [finding_of_ne found fun s eq => starts ⟨s, eq⟩]

theorem valueElement?_eq_some_iff {v : AttributeValue} :
    b.valueElement? = some v ↔ b.node.child? .attributeValue = some v.node := by
  rw [View.valueElement?]
  cases found : b.node.child? .attributeValue with
  | none => simp
  | some m =>
    have kind := Placed.kind_of_child? found
    obtain ⟨node, eq⟩ := v
    simp [View.of?, kind]

/-- What is wrong with a binding is that it assigns an expression to a trigger. -/
theorem finding_eq_some_iff {v : AttributeValue} :
    finding b = .ok (some (v, trigger)) ↔ Assigns b.node trigger v.node := by
  constructor
  · intro wrong
    cases found : b.node.child? .attributeName with
    | none => simp [name_eq_error found] at wrong
    | some m =>
      by_cases starts : ∃ s, m.text = "@" ++ s
      · obtain ⟨s, eq⟩ := starts
        rw [finding_of_eq found eq] at wrong
        simp only [Except.ok.injEq, Option.map_eq_some_iff, Option.filter_eq_some_iff,
          Prod.mk.injEq, Bool.not_eq_true'] at wrong
        obtain ⟨_, ⟨valued, filled⟩, rfl, rfl⟩ := wrong
        exact ⟨⟨m, found, eq⟩, valueElement?_eq_some_iff.1 valued, (text_isEmpty_iff _).1 filled⟩
      · simp [finding_of_ne found fun s eq => starts ⟨s, eq⟩] at wrong
  · rintro ⟨⟨m, found, eq⟩, valued, filled⟩
    rw [finding_of_eq found eq, valueElement?_eq_some_iff.2 valued]
    simp [Option.filter, (text_isEmpty_iff v).2 filled]

/-- The walk for animation triggers checks bindings. -/
theorem checks_visitor (r : Reporter) :
    (visitor r).Checks r finding fun found =>
      r.diagnostic found.1.node message [.rename found.2, .removeValue] where
  composite := rfl
  enter _ _ := rfl
  exit _ _ := rfl
  token _ _ := rfl
  other _ _ := rfl
  handles := rfl
  beside := by
    refine ⟨_, rfl, fun b f => ?_⟩
    rw [View.of?_of_eq b.kind_eq]
    simp only [Reporter.check, check]
    rcases finding b with cause | (_ | ⟨v, s⟩) <;> rfl
  below kind ne := by simp only [visitor]

/-- The diagnostic due at a binding: it is shown at the value and offers to rename the trigger or to
remove the value. -/
def Due (t : Tree) (severity : Severity) (b : Placed) (d : Diagnostic) : Prop :=
  ∃ trigger value, Assigns b trigger value ∧
    d = ⟨inspection.id, message, severity,
      ⟨t.identity, value.id, .attributeValue, value.span, some b.id⟩,
      some (t.location value.span), [.rename trigger, .removeValue]⟩

theorem exists_finding_iff (t : Tree) (severity : Severity) (b : PropertyBinding)
    (d : Diagnostic) :
    (∃ found, finding b = .ok (some found) ∧
      Reporter.diagnostic ⟨t, inspection.id, severity⟩ found.1.node message
        [.rename found.2, .removeValue] = d) ↔ Due t severity b.node d := by
  constructor
  · rintro ⟨⟨v, trigger⟩, found, rfl⟩
    have assigns := finding_eq_some_iff.1 found
    exact ⟨trigger, v.node, assigns, Reporter.diagnostic_of_child? assigns.valued _ _⟩
  · rintro ⟨trigger, value, assigns, rfl⟩
    have kind := Placed.kind_of_child? assigns.valued
    exact ⟨(⟨value, kind⟩, trigger), finding_eq_some_iff.2 assigns,
      Reporter.diagnostic_of_child? assigns.valued _ _⟩

/-- What the walk for animation triggers finds. -/
theorem lists_walk (t : Tree) (severity : Severity) {n : Placed}
    (hd : (n.id :: n.body.ids).Nodup) :
    (n.walk (visitor ⟨t, inspection.id, severity⟩) .none).1.Lists inspection.id n .propertyBinding
      .attributeName (Due t severity) :=
  (checks_visitor ⟨t, inspection.id, severity⟩).lists hd (exists_finding_iff t severity)
    fun _ _ => finding_eq_error_iff

end AnimationTrigger

/-! ### Empty enums -/

namespace EmptyEnum

variable {r : Reporter} {n : Placed}

/-- A declaration declares a name and no constant. -/
structure Lacks (d name : Placed) : Prop where
  named : d.child? .qualifiedName = some name
  empty : ∀ c ∈ d.children, c.kind ≠ .enumerative

/-- What a name is called by: its last segment, or the whole of it if it has none. -/
structure Called (name : Placed) (s : String) : Prop where
  last : ∀ i, (name.childrenOf .identifier).getLast? = some i → s = i.text
  whole : name.childrenOf .identifier = [] → s = name.text

/-- The diagnostic due at a declaration: it is shown at the name declared. -/
def Due (t : Tree) (severity : Severity) (n : Placed) (d : Diagnostic) : Prop :=
  ∃ name s, Lacks n name ∧ Called name s ∧
    d = ⟨inspection.id, "Enum '" ++ s ++ "' declares no constants", severity,
      ⟨t.identity, name.id, .qualifiedName, name.span, some n.id⟩,
      some (t.location name.span), []⟩

theorem called_iff {q : QualifiedName} {s : String} : Called q.node s ↔ s = q.shortName := by
  constructor
  · rintro ⟨last, whole⟩
    rw [QualifiedName.shortName, QualifiedName.identifiers]
    cases found : (q.node.childrenOf .identifier).getLast? with
    | none => exact whole (List.getLast?_eq_none_iff.1 found)
    | some i => exact last i found
  · rintro rfl
    refine ⟨fun i found => ?_, fun none => ?_⟩
    · simp [QualifiedName.shortName, QualifiedName.identifiers, found]
    · simp [QualifiedName.shortName, QualifiedName.identifiers, none, QualifiedName.text]

/-- A check ends at a declaration without a name. -/
theorem finding_eq_error_iff {d : EnumDeclaration} {cause : MissingChild} :
    finding d = .error cause ↔ d.node.child? .qualifiedName = none ∧
      cause = ⟨d.node.kind, d.node.span, .qualifiedName⟩ := by
  rw [finding, EnumDeclaration.qualifiedName, Placed.required]
  cases d.node.child? .qualifiedName with
  | none => simp [bind, Except.bind, eq_comm]
  | some name =>
    simp only [bind, Except.bind]
    split <;> simp [pure, Except.pure]

/-- What is wrong with a declaration is that it declares no constant. -/
theorem finding_eq_some_iff {d : EnumDeclaration} {q : QualifiedName} :
    finding d = .ok (some q) ↔ Lacks d.node q.node := by
  have empty : d.enumeratives.isEmpty = true ↔ ∀ c ∈ d.node.children, c.kind ≠ .enumerative := by
    simp [EnumDeclaration.enumeratives, Placed.childrenOf, List.filter_eq_nil_iff]
  rw [finding, EnumDeclaration.qualifiedName, Placed.required]
  cases found : d.node.child? .qualifiedName with
  | none =>
    constructor
    · intro wrong
      simp [bind, Except.bind] at wrong
    · intro lacks
      simpa [found] using lacks.named
  | some name =>
    have kind := Placed.kind_of_child? found
    have viewed : View.of? .qualifiedName name = some q ↔ q.node = name := by
      obtain ⟨node, eq⟩ := q
      simp [View.of?, kind, eq_comm]
    constructor
    · intro wrong
      by_cases none : d.enumeratives.isEmpty = true
      · simp only [bind, Except.bind, none, if_true, pure, Except.pure, Except.ok.injEq] at wrong
        exact ⟨viewed.1 wrong ▸ found, empty.1 none⟩
      · simp [bind, Except.bind, none, pure, Except.pure] at wrong
    · rintro ⟨named, none⟩
      have same : q.node = name := by simpa [found, eq_comm] using named
      simp [bind, Except.bind, empty.2 none, pure, Except.pure, viewed.2 same]

/-- The walk for empty enums checks declarations. -/
theorem checks_visitor (r : Reporter) :
    (visitor r).Checks r finding fun name =>
      r.diagnostic name.node (message name.shortName) [] where
  composite := rfl
  enter _ _ := rfl
  exit _ _ := rfl
  token _ _ := rfl
  other _ _ := rfl
  handles := rfl
  beside := by
    refine ⟨_, rfl, fun d f => ?_⟩
    rw [View.of?_of_eq d.kind_eq]
    simp only [Reporter.check, check]
    rcases finding d with cause | (_ | name) <;> rfl
  below kind ne := by simp only [visitor]

theorem exists_finding_iff (t : Tree) (severity : Severity) (n : EnumDeclaration)
    (d : Diagnostic) :
    (∃ name, finding n = .ok (some name) ∧
      Reporter.diagnostic ⟨t, inspection.id, severity⟩ name.node (message name.shortName) [] = d) ↔
      Due t severity n.node d := by
  constructor
  · rintro ⟨name, found, rfl⟩
    have lacks := finding_eq_some_iff.1 found
    exact ⟨name.node, name.shortName, lacks, called_iff.2 rfl,
      Reporter.diagnostic_of_child? lacks.named _ _⟩
  · rintro ⟨name, s, lacks, called, rfl⟩
    have kind := Placed.kind_of_child? lacks.named
    obtain rfl : s = QualifiedName.shortName ⟨name, kind⟩ := called_iff.1 called
    exact ⟨⟨name, kind⟩, finding_eq_some_iff.2 lacks,
      Reporter.diagnostic_of_child? lacks.named _ _⟩

/-- What the walk for empty enums finds. -/
theorem lists_walk (t : Tree) (severity : Severity) {n : Placed}
    (hd : (n.id :: n.body.ids).Nodup) :
    (n.walk (visitor ⟨t, inspection.id, severity⟩) .none).1.Lists inspection.id n .enumDeclaration
      .qualifiedName (Due t severity) :=
  (checks_visitor ⟨t, inspection.id, severity⟩).lists hd (exists_finding_iff t severity)
    fun _ _ => finding_eq_error_iff

end EmptyEnum

/-! ### Passes -/

namespace Inspector

variable {i : Inspector} {t : Tree} {r : Placed} {trigger enum : Severity}

/-- An inspector of both inspections, in any order, each with a severity. -/
def Runs (i : Inspector) (trigger enum : Severity) : Prop :=
  i.registered.Perm [⟨AnimationTrigger.inspection, trigger⟩, ⟨EmptyEnum.inspection, enum⟩]

/-- What a pass over a node reports: in a template what is due at bindings, in rules what is due at
enum declarations, and nothing at a node of neither language. -/
structure Reports (i : Inspector) (t : Tree) (r : Placed) (trigger enum : Severity) : Prop where
  template : r.kind.language = .template →
    (i.inspect t r).Lists AnimationTrigger.inspection.id r .propertyBinding .attributeName
      (AnimationTrigger.Due t trigger)
  rules : r.kind.language = .rules →
    (i.inspect t r).Lists EmptyEnum.inspection.id r .enumDeclaration .qualifiedName
      (EmptyEnum.Due t enum)
  common : r.kind.language = .common → i.inspect t r = .none
  reported : (i.summary t r).reported = (i.inspect t r).diagnostics.length
  malformed : (i.summary t r).malformed = (i.inspect t r).skipped.length

/-- The inspections that run on nodes of a language. -/
theorem Runs.matching (h : i.Runs trigger enum) (language : Language) :
    i.matching language = match language with
      | .template => [⟨AnimationTrigger.inspection, trigger⟩]
      | .rules => [⟨EmptyEnum.inspection, enum⟩]
      | .common => [] := by
  have same := h.filter (·.inspection.language == language)
  cases language with
  | template => exact List.perm_singleton.1 same
  | rules => exact List.perm_singleton.1 same
  | common => exact List.perm_nil.1 same

/-- **What a pass reports.** -/
theorem reports_of_reachable (h : t.Reachable) (hr : r ∈ t.nodes) (hi : i.Runs trigger enum) :
    i.Reports t r trigger enum := by
  have hd := Content.nodup_of_mem h.numbered.nodup hr
  have template (language : r.kind.language = .template) :
      (i.inspect t r).Lists AnimationTrigger.inspection.id r .propertyBinding .attributeName
        (AnimationTrigger.Due t trigger) := by
    rw [inspect, language, hi.matching]
    exact AnimationTrigger.lists_walk t trigger hd
  have rules (language : r.kind.language = .rules) :
      (i.inspect t r).Lists EmptyEnum.inspection.id r .enumDeclaration .qualifiedName
        (EmptyEnum.Due t enum) := by
    rw [inspect, language, hi.matching]
    exact EmptyEnum.lists_walk t enum hd
  have common (language : r.kind.language = .common) : i.inspect t r = .none := by
    rw [inspect, language, hi.matching]
    rfl
  have counted : (i.inspect t r).reported = (i.inspect t r).diagnostics.length ∧
      (i.inspect t r).malformed = (i.inspect t r).skipped.length := by
    cases language : r.kind.language with
    | template => exact ⟨(template language).reported, (template language).malformed⟩
    | rules => exact ⟨(rules language).reported, (rules language).malformed⟩
    | common =>
      rw [common language]
      exact ⟨rfl, rfl⟩
  exact ⟨template, rules, common, counted.1, counted.2⟩

/-- A document of a binding that assigns to a trigger and of one without a name. -/
theorem reports_of_assigned : ∃ t : Tree,
    Tree.ofEvents 0 [.start .document, .start .propertyBinding, .token .attributeName "@a",
      .start .attributeValue, .token .valueText "b", .finish, .finish, .start .propertyBinding,
      .finish, .finish] = .ok t ∧
    default.Reports t t.top .error .warning ∧ t.top.kind.language = .template ∧
    (default.summary t t.top).reported = 1 ∧ (default.summary t t.top).malformed = 1 := by
  have built : Tree.ofEvents 0 [.start .document, .start .propertyBinding,
      .token .attributeName "@a", .start .attributeValue, .token .valueText "b", .finish, .finish,
      .start .propertyBinding, .finish, .finish] =
      .ok ⟨0, "", ⟨5, .document, .node "" 3 .propertyBinding (.node "" 0 .attributeName (.tail "@a")
        (.node "" 2 .attributeValue (.node "" 1 .valueText (.tail "b") (.tail "")) (.tail "")))
        (.node "" 4 .propertyBinding (.tail "") (.tail ""))⟩, ""⟩ := rfl
  refine ⟨_, built, ?_, rfl, ?_, ?_⟩
  · exact reports_of_reachable (.built built) Tree.top_mem_nodes (List.Perm.refl _)
  · decide +kernel
  · decide +kernel

end Inspector

end SyntaxLint
