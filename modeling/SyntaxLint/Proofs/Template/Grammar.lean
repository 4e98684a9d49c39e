import Mathlib.Data.List.Chain
import SyntaxLint.Proofs.Lint.Findings
import SyntaxLint.Proofs.Template.Origin
import SyntaxLint.Proofs.Template.Tags
import SyntaxLint.View.Template

/-!
# Proofs — Templates — the grammar

The children of a node in the tree of a template are those that the grammar gives to its kind, so
the accessors of the views that rely on it find what they look for.

* `Production`: the productions of the grammar.
* `Made.production`: the children of a node that is made from some piece.
* `Tree.Conforming`: a tree that conforms to the grammar.
* `conforming_parse`: the tree of a template does.
-/

namespace SyntaxLint

/-! ### Productions -/

/-- Nodes that stand between tags. -/
def Node.IsFlow (n : Node) : Prop := n.kind ∈ [Kind.text, .comment, .element, .endTag]

/-- One node of a kind or none. -/
def Optional (kind : Kind) (ns : List Node) : Prop := ns = [] ∨ ∃ n, ns = [n] ∧ n.kind = kind

/-- What follows the name of an attribute: nothing, or `=`, or `=` and a value. -/
inductive Assigned : List Node → Prop
  | none : Assigned []
  | equals {gap : List Node} {sign : Node} (blank : Optional .whitespace gap)
      (equals : sign.kind = .equals) : Assigned (gap ++ [sign])
  | value {gap inner : List Node} {sign value : Node} (blank : Optional .whitespace gap)
      (equals : sign.kind = .equals) (blank' : Optional .whitespace inner)
      (valued : value.kind = .attributeValue) : Assigned (gap ++ sign :: (inner ++ [value]))

/-- What the children of a node of a kind may be. -/
inductive Production : Kind → List Node → Prop
  | document {flow : List Node} (flows : ∀ n ∈ flow, n.IsFlow) : Production .document flow
  /-- only a start tag, where that closes itself or is the tag of a void element -/
  | element {tag : Node} {flow : List Node} (start : tag.kind = .startTag)
      (closed : (tag.closesItself = true ∨ ∃ name, tag.tagName? = some name ∧
        Template.isNamed Template.voidElements name.toList = true) → flow = [])
      (flows : ∀ n ∈ flow, n.IsFlow) : Production .element (tag :: flow)
  | startTag {left name right : Node} {parts : List Node} (opens : left.kind = .tagOpen)
      (named : name.kind = .tagName)
      (within : ∀ n ∈ parts, n.kind = .whitespace ∨ n.kind.isAttribute = true ∨ n.kind = .error)
      (closes : right.kind = .tagClose) : Production .startTag (left :: name :: (parts ++ [right]))
  | endTag {left name right : Node} {gap : List Node} (opens : left.kind = .tagOpen)
      (named : name.kind = .tagName) (blank : Optional .whitespace gap)
      (closes : right.kind = .tagClose) : Production .endTag (left :: name :: (gap ++ [right]))
  /-- the kind of an attribute is that of its name -/
  | attr {kind : Kind} {name : Node} {rest : List Node}
      (told : kind = AttributeName.kind name.body.text) (named : name.kind = .attributeName)
      (assigned : Assigned rest) : Production kind (name :: rest)
  /-- the quote does not occur in the value -/
  | quoted {left right : Node} {text : List Node} {q : Char} (quote : q = '"' ∨ q = '\'')
      (opens : left.kind = .quote)
      (begins : left.body.text = q.toString) (within : Optional .valueText text)
      (absent : ∀ n ∈ text, q ∉ n.body.text.toList) (closes : right.kind = .quote)
      (ends : right.body.text = q.toString) : Production .attributeValue (left :: (text ++ [right]))
  | bare {value : Node} (valued : value.kind = .valueText) : Production .attributeValue [value]

theorem Optional.kind_eq {kind : Kind} {ns : List Node} (h : Optional kind ns) :
    ∀ n ∈ ns, n.kind = kind := by
  rcases h with rfl | ⟨n, rfl, e⟩
  · simp
  · simpa using e

theorem Assigned.kind_mem {ns : List Node} (h : Assigned ns) :
    ∀ n ∈ ns, n.kind ∈ [Kind.whitespace, .equals, .attributeValue] := by
  cases h with
  | none => simp
  | equals blank equals =>
    intro n hn
    rcases List.mem_append.1 hn with hn | hn
    · simp [blank.kind_eq n hn]
    · simp [List.mem_singleton.1 hn, equals]
  | value blank equals blank' valued =>
    intro n hn
    rcases List.mem_append.1 hn with hn | hn
    · simp [blank.kind_eq n hn]
    · rcases List.mem_cons.1 hn with rfl | hn
      · simp [equals]
      · rcases List.mem_append.1 hn with hn | hn
        · simp [blank'.kind_eq n hn]
        · simp [List.mem_singleton.1 hn, valued]

/-- What stands between tags stands in no tag. -/
theorem Production.inner {kind : Kind} {ns : List Node} (h : Production kind ns)
    (apart : kind ≠ .document ∧ kind ≠ .element) : ∀ n ∈ ns, ¬ n.IsFlow ∧ n.kind ≠ .document := by
  suffices inner : ∀ n ∈ ns, n.kind ∉ [Kind.document, .text, .comment, .element, .endTag] by
    intro n hn
    simpa [Node.IsFlow, and_comm] using inner n hn
  intro n hn e
  cases h with
  | document => exact apart.1 rfl
  | element => exact apart.2 rfl
  | startTag opens named within closes =>
    simp only [List.mem_cons, List.mem_append, List.not_mem_nil, or_false] at hn
    rcases hn with rfl | rfl | hn | rfl
    · simp [opens] at e
    · simp [named] at e
    · rcases within n hn with kind | attr | kind
      · simp [kind] at e
      · cases kind : n.kind <;> simp_all [Kind.isAttribute]
      · simp [kind] at e
    · simp [closes] at e
  | endTag opens named blank closes =>
    simp only [List.mem_cons, List.mem_append, List.not_mem_nil, or_false] at hn
    rcases hn with rfl | rfl | hn | rfl
    · simp [opens] at e
    · simp [named] at e
    · simp [blank.kind_eq n hn] at e
    · simp [closes] at e
  | attr _ named assigned =>
    rcases List.mem_cons.1 hn with rfl | hn
    · simp [named] at e
    · have kind := assigned.kind_mem n hn
      cases h : n.kind <;> simp_all
  | quoted _ opens _ within _ closes =>
    simp only [List.mem_cons, List.mem_append, List.not_mem_nil, or_false] at hn
    rcases hn with rfl | hn | rfl
    · simp [opens] at e
    · simp [within.kind_eq n hn] at e
    · simp [closes] at e
  | bare valued => simp [List.mem_singleton.1 hn, valued] at e

/-- Only attributes have the kind of an attribute. -/
theorem isAttribute_of_eq {kind : Kind} {name : String} (h : kind = AttributeName.kind name) :
    kind.isAttribute = true :=
  h ▸ Template.isAttribute_kindOf _

/-- An element has a start tag. -/
theorem Production.exists_startTag {ns : List Node} (h : Production .element ns) :
    ∃ n ∈ ns, n.kind = .startTag := by
  cases h with
  | element start => exact ⟨_, List.mem_cons_self, start⟩
  | attr told => simpa [Kind.isAttribute] using isAttribute_of_eq told

/-- A start tag has a name. -/
theorem Production.exists_tagName {ns : List Node} (h : Production .startTag ns) :
    ∃ n ∈ ns, n.kind = .tagName := by
  cases h with
  | startTag _ named => exact ⟨_, List.mem_cons_of_mem _ List.mem_cons_self, named⟩
  | attr told => simpa [Kind.isAttribute] using isAttribute_of_eq told

/-- An end tag has no parts but its name and marks. -/
theorem Production.kind_of_endTag {ns : List Node} (h : Production .endTag ns) :
    ∀ n ∈ ns, n.kind ∈ [Kind.tagOpen, .tagName, .whitespace, .tagClose] := by
  cases h with
  | endTag opens named blank closes =>
    simp only [List.forall_mem_cons, List.forall_mem_append]
    exact ⟨by simp [opens], by simp [named], fun n hn => by simp [blank.kind_eq n hn],
      by simp [closes]⟩
  | attr told => simpa [Kind.isAttribute] using isAttribute_of_eq told

/-- An attribute has a name. -/
theorem Production.exists_attributeName {kind : Kind} {ns : List Node} (h : Production kind ns)
    (attr : kind.isAttribute = true) : ∃ n ∈ ns, n.kind = .attributeName := by
  cases h with
  | attr _ named => exact ⟨_, List.mem_cons_self, named⟩
  | document | element | startTag | endTag | quoted | bare => simp [Kind.isAttribute] at attr

/-- Nodes of which no two neighbours are texts. -/
def Separate (ns : List Node) : Prop := ns.IsChain fun a b => ¬ (a.kind = .text ∧ b.kind = .text)

theorem separate_of_ne_text {ns : List Node} (h : ∀ n ∈ ns, n.kind ≠ .text) : Separate ns := by
  have apart : ns.Pairwise fun a b => ¬ (a.kind = .text ∧ b.kind = .text) :=
    List.pairwise_of_forall_mem_list fun a ha _ _ both => h a ha both.1
  exact apart.isChain

theorem Separate.cons {n : Node} {ns : List Node} (h : Separate ns) (ne : n.kind ≠ .text) :
    Separate (n :: ns) :=
  List.isChain_cons.2 ⟨fun _ _ both => ne both.1, h⟩

namespace Template

variable {F : Forest} {kind : Kind} {a : Fragment}

theorem optional_leaf? (kind : Kind) (cs : List Char) (free : NodeId) :
    Optional kind ((leaf? kind cs).nodes free) := by
  unfold leaf?
  split
  · exact .inl rfl
  · exact .inr ⟨_, rfl, rfl⟩

/-! ### Productions of made nodes -/

/-- The nodes of a forest stand between tags. -/
theorem isFlow_fragment (F : Forest) (free : NodeId) : ∀ n ∈ F.fragment.nodes free, n.IsFlow := by
  induction F generalizing free with
  | done => simp [Forest.fragment, Fragment.none]
  | comment _ next ih | text _ next ih | close _ next ih | element _ _ next _ ih =>
    exact List.forall_mem_cons.2 ⟨by simp [Node.IsFlow, Fragment.root], ih _⟩

/-- Whether a start tag leaves no element open is told by its node. -/
theorem StartTag.isClosed_of_root {tag : StartTag} {free : NodeId}
    (h : (tag.below.root .startTag free).closesItself = true ∨
      ∃ name, (tag.below.root .startTag free).tagName? = some name ∧
        isNamed voidElements name.toList = true) : tag.isClosed = true := by
  rw [isClosed, Bool.or_eq_true]
  simpa using h

theorem Value.Proper.production {v : Value} (h : v.Proper) (free : NodeId) :
    Production .attributeValue (v.fragment.nodes free) := by
  cases v with
  | quoted q s =>
    refine .quoted (q := q) h.1 rfl ?_ (optional_leaf? .valueText s _) ?_ rfl ?_
    · simp
    · intro n hn
      unfold leaf? at hn
      split at hn
      · simp [Fragment.none] at hn
      · obtain rfl := List.mem_singleton.1 hn
        simpa using h.2
    · simp
  | bare s => exact .bare rfl

theorem Assignment.assigned (a : Assignment) (free : NodeId) :
    Assigned (a.fragment.nodes free) := by
  cases a with
  | none => exact .none
  | equals gap => exact .equals (optional_leaf? _ _ _) rfl
  | value gap inner v => exact .value (optional_leaf? _ _ _) rfl (optional_leaf? _ _ _) rfl

/-- **The children of a node that is made are those the grammar gives it.** -/
theorem Made.production (h : Made kind a) (free : NodeId) : Production kind (a.nodes free) := by
  cases h with
  | @element tag inside h =>
    refine .element rfl (fun closed => ?_) (isFlow_fragment inside _)
    obtain rfl := h.1.2.1 (StartTag.isClosed_of_root closed)
    rfl
  | @startTag tag =>
    obtain ⟨id, nodes⟩ := tag.nodes_below free
    rw [nodes]
    exact .startTag rfl rfl (kind_partsFragment tag.parts _) rfl
  | @endTag tag =>
    obtain ⟨id, nodes⟩ := tag.nodes_below free
    rw [nodes]
    exact .endTag rfl rfl (optional_leaf? _ _ _) rfl
  | @attr a =>
    exact .attr (by simp [AttributeName.kind]) rfl (a.assignment.assigned _)
  | value h => exact h.production free

/-! ### Texts -/

/-- Only a forest that begins with a text begins with the node of one. -/
theorem startsText_of_head? {n : Node} {free : NodeId} (hn : n ∈ (F.fragment.nodes free).head?)
    (text : n.kind = .text) : F.startsText = true := by
  cases F with
  | done => simp [Forest.fragment, Fragment.none] at hn
  | text => rfl
  | comment | close | element =>
    obtain rfl := Option.some.inj hn
    simp [Fragment.root] at text

/-- In a well-formed forest no text follows a text. -/
theorem Forest.Proper.separate (h : F.Proper) (free : NodeId) :
    Separate (F.fragment.nodes free) := by
  induction F generalizing free with
  | done => exact .nil
  | comment inner next ih => exact (ih h _).cons (by simp)
  | text cs next ih =>
    refine List.isChain_cons.2 ⟨fun n hn both => ?_, ih h.2.2 _⟩
    have starts := startsText_of_head? hn both.2
    rw [h.2.1] at starts
    simp at starts
  | close tag next ih => exact (ih h.2 _).cons (by simp [Fragment.root])
  | element tag inside next _ ih => exact (ih h.2 _).cons (by simp [Fragment.root])

theorem Made.separate (h : Made kind a) (free : NodeId) : Separate (a.nodes free) := by
  have apart : kind ≠ .document ∧ kind ≠ .element → Separate (a.nodes free) := fun apart =>
    separate_of_ne_text fun n hn text =>
      ((h.production free).inner apart n hn).1 (by simp [Node.IsFlow, text])
  cases h with
  | element h => exact (h.1.2.2.2.separate _).cons (by simp [Fragment.root])
  | @attr a =>
    have attr := isAttribute_kindOf a.name
    refine apart ⟨fun e => ?_, fun e => ?_⟩ <;> simp [e, Kind.isAttribute] at attr
  | startTag | endTag | value => exact apart (by simp)

/-- What is below a node other than the document. -/
theorem Origin.production {n : Node} (h : Origin n) :
    (n.kind.isToken = true ∧ n.body.nodes = []) ∨ Production n.kind n.body.nodes := by
  cases h with
  | token h => exact .inl ⟨h, rfl⟩
  | made made free => exact .inr (by simpa [Fragment.root] using made.production free)

theorem Origin.separate {n : Node} (h : Origin n) : Separate n.body.nodes := by
  cases h with
  | token => exact .nil
  | made made free => simpa [Fragment.root] using made.separate free

end Template

/-! ### Accessors -/

/-- What is promised is found where it is among the children. -/
theorem Placed.exists_required {n : Placed} {kind : Kind}
    (h : ∃ m ∈ n.children.map (·.toNode), m.kind = kind) :
    ∃ c ∈ n.children, c.kind = kind ∧ n.required kind = .ok c := by
  obtain ⟨m, hm, rfl⟩ := h
  obtain ⟨p, hp, rfl⟩ := List.mem_map.1 hm
  have found : (n.child? p.kind).isSome := List.find?_isSome.2 ⟨p, hp, by simp⟩
  obtain ⟨c, hc⟩ := Option.isSome_iff_exists.1 found
  exact ⟨c, mem_of_child? hc, kind_of_child? hc, by rw [Placed.required, hc]⟩

/-- A tree that conforms to the grammar of templates. -/
structure Tree.Conforming (t : Tree) : Prop where
  root : t.top.kind = .document
  node : ∀ n ∈ t.nodes, (n.kind.isToken = true ∧ n.children = []) ∨
    Production n.kind (n.children.map (·.toNode))
  separate : ∀ n ∈ t.nodes, Separate (n.children.map (·.toNode))

namespace Tree.Conforming

variable {t : Tree} {n : Placed}

theorem production (h : t.Conforming) (hn : n ∈ t.nodes) (composite : n.kind.isToken = false) :
    Production n.kind (n.children.map (·.toNode)) :=
  (h.node n hn).resolve_left fun token => by simp [composite] at token

/-- The accessors of an element. -/
theorem element (h : t.Conforming) (e : Element) (he : e.node ∈ t.nodes) :
    ∃ tag name attributes, e.startTag = .ok tag ∧ e.tagName = .ok name ∧
      e.attributes = .ok attributes := by
  have children := h.production he (by rw [e.kind_eq]; rfl)
  rw [e.kind_eq] at children
  obtain ⟨tag, mem, kind, found⟩ := Placed.exists_required children.exists_startTag
  have below := h.production (Tree.mem_nodes_of_mem_children he mem) (by rw [kind]; rfl)
  rw [kind] at below
  obtain ⟨name, -, -, found'⟩ := Placed.exists_required below.exists_tagName
  have started : e.startTag = .ok tag := found
  refine ⟨tag, name.text, tag.children.filter (·.kind.isAttribute), started, ?_, ?_⟩
  · rw [Element.tagName, started]
    simp only [bind, Except.bind, found', pure, Except.pure]
  · rw [Element.attributes, started]
    rfl

/-- The name of an attribute in any of the three forms. -/
theorem nameElement (h : t.Conforming) {kind : Kind} (attr : kind.isAttribute = true)
    (v : View kind) (hv : v.node ∈ t.nodes) : ∃ name, v.nameElement = .ok name := by
  obtain ⟨node, rfl⟩ := v
  have children := h.production hv (Template.isToken_of_isAttribute attr)
  obtain ⟨name, -, -, found⟩ := Placed.exists_required (children.exists_attributeName attr)
  exact ⟨name, found⟩

end Tree.Conforming

namespace Template

theorem Forest.Proper.conforming {F : Forest} (h : F.Proper) (identity : TreeId) :
    (F.tree identity).Conforming := by
  have top : (F.tree identity).top.children.map (·.toNode) = F.fragment.nodes 0 := by
    rw [Placed.map_toNode_children]
    exact Content.nodes_ofNodes _
  constructor
  case root => rfl
  case node =>
    intro n hn
    rcases h.origin hn with rfl | origin
    · rw [top]
      exact .inr (.document (isFlow_fragment F 0))
    · rw [← List.map_eq_nil_iff, Placed.map_toNode_children]
      exact origin.production
  case separate =>
    intro n hn
    rcases h.origin hn with rfl | origin
    · rw [top]
      exact h.separate 0
    · rw [Placed.map_toNode_children]
      exact origin.separate

/-- Nothing in a template is malformed. -/
theorem malformed_parse {identity : TreeId} {source : String} {t : Tree}
    (short : source.utf8ByteSize < 2 ^ 32) (h : parse identity source = .ok t) :
    (Inspector.default.summary t t.top).malformed = 0 := by
  have on : Inspector.default.Watches .error := rfl
  obtain ⟨F, -, rfl⟩ := exists_forest_of_parse short h
  have found := Inspector.findings_eq on (shaped_parse short h).1 rfl
  rw [Inspector.summary, show Inspector.default.inspect (F.tree identity) (F.tree identity).top =
    Inspector.default.findings (F.tree identity) from rfl, found]
  rfl

/-- **The tree of a template that offsets reach conforms to the grammar.**  So every accessor finds
the child that it is promised, and an inspection skips no node as malformed. -/
theorem conforming_parse {identity : TreeId} {source : String} {t : Tree}
    (short : source.utf8ByteSize < 2 ^ 32) (h : parse identity source = .ok t) :
    t.Conforming ∧
    (∀ e : Element, e.node ∈ t.nodes → ∃ tag name attributes, e.startTag = .ok tag ∧
      e.tagName = .ok name ∧ e.attributes = .ok attributes) ∧
    (∀ a : PlainAttribute, a.node ∈ t.nodes → ∃ name, a.nameElement = .ok name) ∧
    (∀ b : PropertyBinding, b.node ∈ t.nodes → ∃ name, b.nameElement = .ok name) ∧
    (∀ b : EventBinding, b.node ∈ t.nodes → ∃ name, b.nameElement = .ok name) ∧
    (Inspector.default.summary t t.top).malformed = 0 := by
  have malformed := malformed_parse short h
  obtain ⟨F, proper, rfl⟩ := exists_forest_of_parse short h
  have conforming := proper.conforming identity
  exact ⟨conforming, conforming.element, conforming.nameElement rfl, conforming.nameElement rfl,
    conforming.nameElement rfl, malformed⟩

/-- A template with an attribute of each form, a void element and one that closes itself. -/
theorem conforming_parse_of_attributes : ∃ t : Tree,
    parse 0 "<p [a] = 'b' (c)=d e><br></p><i/>" = .ok t ∧ t.Conforming ∧
      (Inspector.default.summary t t.top).malformed = 0 := by
  have short : "<p [a] = 'b' (c)=d e><br></p><i/>".utf8ByteSize < 2 ^ 32 := by decide
  have parsed : (parse 0 "<p [a] = 'b' (c)=d e><br></p><i/>").isOk = true := by decide +kernel
  obtain ⟨t, h⟩ := exists_parse_of_isOk parsed
  obtain ⟨conforming, -, -, -, -, malformed⟩ := conforming_parse short h
  exact ⟨t, h, conforming, malformed⟩

end Template

end SyntaxLint
