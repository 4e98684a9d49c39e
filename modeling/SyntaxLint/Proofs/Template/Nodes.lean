import SyntaxLint.Proofs.Template.Rebind
import SyntaxLint.Proofs.Tree.Fragment
import SyntaxLint.Template.Parse

/-!
# Proofs — Templates — the nodes of an attribute

The node of an attribute has its name and its blanks as leaves.  Binding a trigger gives these
leaves new texts and changes nothing else, and whether an attribute is such a trigger is told by
its node alone.

* `Attribute.node`, `Attribute.adds_events`: the node of an attribute.
* `Node.isReported`, `Attribute.isReported_node`: the nodes of triggers given an expression.
* `Node.rebind`, `Attribute.node_rebind`: the node of a rebound attribute.
-/

namespace SyntaxLint

open Template

/-! ### Rebinding nodes -/

/-- Whether a node is a binding by a trigger that is given an expression. -/
def Node.isReported (n : Node) : Bool :=
  n.kind == .propertyBinding &&
    (n.body.child? .attributeName).any (fun m => AttributeName.isTrigger m.body.text.toList) &&
    ((n.body.child? .attributeValue).bind (·.body.child? .valueText)).any
      (fun m => m.body.text != "")

variable (space : String → Option String)

/-- The new text of a node in a rebound binding: that of the name in brackets, and that of white
space as `space` has it. -/
def Node.change (n : Node) : Option String :=
  if n.kind = .attributeName then some ("[" ++ n.body.text ++ "]")
  else if n.kind = .whitespace then space n.body.text
  else none

/-- A run in which the reported bindings are rebound. -/
def Content.rebind : Content → Content
  | .tail s => .tail s
  | .node gap id kind body next =>
    .node gap id kind
      (if (Node.mk id kind body).isReported then body.retext (Node.change space) else body.rebind)
      next.rebind

/-- A node in which the reported bindings are rebound, itself included. -/
def Node.rebind (n : Node) : Node :=
  { n with
    body := if n.isReported then n.body.retext (Node.change space) else n.body.rebind space }

/-- How blanks are written where white space is changed by `space`. -/
def squeezeBy (cs : List Char) : List Char :=
  if cs.isEmpty then [] else ((space (String.ofList cs)).map String.toList).getD cs

variable {space}

/-- White space is changed to one space if it is changed. -/
def OneSpace (space : String → Option String) : Prop := ∀ s x, space s = some x → x = " "

theorem squeezes_squeezeBy (h : OneSpace space) : Squeezes (squeezeBy space) := by
  constructor
  case blank =>
    intro s blank
    unfold squeezeBy
    split
    · rfl
    · cases e : space (String.ofList s) with
      | none => exact blank
      | some x =>
        obtain rfl := h _ _ e
        change " ".toList.all Text.isBlank = true
        decide
  case nil =>
    intro s
    unfold squeezeBy
    split
    · rename_i empty
      simpa using empty
    · rename_i full
      cases e : space (String.ofList s) with
      | none => simp
      | some x =>
        obtain rfl := h _ _ e
        simpa using full

theorem Content.rebind_ofNodes (ns : List Node) :
    (ofNodes ns).rebind space = ofNodes (ns.map (Node.rebind space)) := by
  induction ns with
  | nil => rfl
  | cons n ns ih => simp only [ofNodes, rebind, ih, List.map_cons, Node.rebind]

theorem Node.isReported_of_kind {n : Node} (h : n.kind ≠ .propertyBinding) :
    n.isReported = false := by
  simp [isReported, h]

theorem Node.isReported_leaf (id : NodeId) (kind : Kind) (s : String) :
    (Node.mk id kind (.tail s)).isReported = false := by
  simp [isReported, Content.child?]

theorem Node.rebind_leaf (id : NodeId) (kind : Kind) (s : String) :
    (Node.mk id kind (.tail s)).rebind space = ⟨id, kind, .tail s⟩ := by
  simp [rebind, isReported_leaf, Content.rebind]

theorem Content.rebind_of_not_reported {c : Content} (h : ∀ n ∈ c.members, n.isReported = false) :
    c.rebind space = c := by
  induction c with
  | tail s => rfl
  | node gap id kind body next ihb ihn =>
    simp only [members, List.cons_append, List.mem_cons, List.mem_append] at h
    rw [rebind, h _ (.inl rfl), ihb fun n hn => h n (.inr (.inl hn)),
      ihn fun n hn => h n (.inr (.inr hn))]
    rfl

namespace Template

/-! ### The nodes of an attribute -/

/-- A leaf of the given characters, unless there are none. -/
def leaf? (kind : Kind) (cs : List Char) : Fragment :=
  if cs.isEmpty then .none else .leaf kind (String.ofList cs)

def Value.fragment : Value → Fragment
  | .quoted q s => (Fragment.leaf .quote (String.ofList [q])).append
      ((leaf? .valueText s).append (.leaf .quote (String.ofList [q])))
  | .bare s => .leaf .valueText (String.ofList s)

def Assignment.fragment : Assignment → Fragment
  | .none => .none
  | .equals gap => (leaf? .whitespace gap).append (.leaf .equals "=")
  | .value gap inner v => (leaf? .whitespace gap).append ((Fragment.leaf .equals "=").append
      ((leaf? .whitespace inner).append (v.fragment.node .attributeValue)))

/-- What is below the node of an attribute. -/
def Attribute.below (a : Attribute) : Fragment :=
  (Fragment.leaf .attributeName (String.ofList a.name)).append a.assignment.fragment

/-- The node of an attribute, when the first identity is given. -/
def Attribute.node (a : Attribute) (free : NodeId) : Node :=
  ⟨free + a.below.size, AttributeName.kindOf a.name, Content.ofNodes (a.below.nodes free)⟩

theorem isAttribute_kindOf (name : List Char) :
    (AttributeName.kindOf name).isAttribute = true := by
  unfold AttributeName.kindOf
  split
  · rfl
  · split <;> rfl

theorem isToken_of_isAttribute {kind : Kind} (h : kind.isAttribute = true) :
    kind.isToken = false := by
  cases kind <;> first | rfl | simp [Kind.isAttribute] at h

theorem adds_token? (kind : Kind) (cs : List Char) : Adds (token? kind cs) (leaf? kind cs) := by
  unfold token? leaf?
  split
  · exact .nil
  · exact .token _ _

theorem Value.adds_events (v : Value) : Adds v.events v.fragment := by
  cases v with
  | quoted q s => exact (Adds.token .quote _).append ((adds_token? _ s).append (.token _ _))
  | bare s => exact .token _ _

theorem Assignment.adds_events (a : Assignment) : Adds a.events a.fragment := by
  cases a with
  | none => exact .nil
  | equals gap => exact (adds_token? _ gap).append (.token _ _)
  | value gap inner v =>
    have adds := (adds_token? .whitespace gap).append ((Adds.token .equals "=").append
      ((adds_token? .whitespace inner).append (v.adds_events.node .attributeValue)))
    rw [events, fragment]
    simpa [Template.token] using adds

/-- The events of an attribute add its node. -/
theorem Attribute.adds_events (a : Attribute) :
    Adds a.events ⟨a.below.size + 1, fun free => [a.node free]⟩ :=
  ((Adds.token .attributeName (String.ofList a.name)).append a.assignment.adds_events).node _

/-! ### What is below an attribute -/

theorem all_leaf? {P : Node → Prop} {kind : Kind} {cs : List Char}
    (h : cs ≠ [] → ∀ free, P ⟨free, kind, .tail (String.ofList cs)⟩) : (leaf? kind cs).All P := by
  unfold leaf?
  split
  · exact .none
  · rename_i full
    exact .leaf (h (by simpa using full))

/-- The nodes of a value are quotes and its text. -/
theorem Value.all_fragment (v : Value) : v.fragment.All fun m =>
    (m.kind = .quote ∨ m.kind = .valueText) ∧ m.body.isLeaf = true := by
  cases v with
  | quoted q s =>
    exact (Fragment.All.leaf fun _ => ⟨.inl rfl, rfl⟩).append
      ((all_leaf? fun _ _ => ⟨.inr rfl, rfl⟩).append (.leaf fun _ => ⟨.inl rfl, rfl⟩))
  | bare s => exact .leaf fun _ => ⟨.inr rfl, rfl⟩

/-- A node below an attribute, its name apart. -/
structure IsInner (m : Node) : Prop where
  name : m.kind ≠ .attributeName
  binding : m.kind ≠ .propertyBinding
  token : m.kind.isToken = true → m.body.isLeaf = true
  blank : m.kind = .whitespace → m.body.text ≠ ""

theorem isInner_of_kind {m : Node} (h : m.kind ∈ [.equals, .attributeValue, .quote, .valueText])
    (token : m.kind.isToken = true → m.body.isLeaf = true) : IsInner m := by
  refine ⟨?_, ?_, token, ?_⟩ <;> intro e <;> rw [e] at h <;> simp at h

theorem isInner_blank {cs : List Char} (ne : cs ≠ []) (free : NodeId) :
    IsInner ⟨free, .whitespace, .tail (String.ofList cs)⟩ := by
  refine ⟨by simp, by simp, fun _ => rfl, fun _ e => ne ?_⟩
  simpa using congrArg String.toList e

theorem Assignment.all_fragment (a : Assignment) : a.fragment.All IsInner := by
  have blank : ∀ cs, (leaf? .whitespace cs).All IsInner := fun cs => all_leaf? isInner_blank
  have equals : (Fragment.leaf .equals "=").All IsInner :=
    .leaf fun _ => isInner_of_kind (by simp) fun _ => rfl
  cases a with
  | none => exact .none
  | equals gap => exact (blank gap).append equals
  | value gap inner v =>
    have text : (v.fragment.node .attributeValue).All IsInner := by
      refine .node (fun n e => isInner_of_kind (by simp [e]) (by simp [e, Kind.isToken]))
        (v.all_fragment.imp fun m h => ?_)
      rcases h with ⟨h | h, leaf⟩ <;> exact isInner_of_kind (by simp [h]) fun _ => leaf
    exact (blank gap).append (equals.append ((blank inner).append text))

/-- Below an attribute are its name and inner nodes. -/
theorem Attribute.members_node (a : Attribute) (free : NodeId) {m : Node}
    (hm : m ∈ (a.node free).body.members) :
    m = ⟨free, .attributeName, .tail (String.ofList a.name)⟩ ∨ IsInner m := by
  rw [node, below, Content.members_ofNodes] at hm
  simp only [Fragment.append, Fragment.leaf, List.cons_append, List.nil_append, List.flatMap_cons,
    Content.members, List.mem_cons] at hm
  rcases hm with rfl | hm
  · exact .inl rfl
  · exact .inr (a.assignment.all_fragment _ m (by rwa [Content.members_ofNodes]))

/-! ### Triggers -/

theorem kindOf_of_isTrigger {name : List Char} (h : AttributeName.isTrigger name = true) :
    AttributeName.kindOf name = .propertyBinding := by
  simp [AttributeName.kindOf, h]

theorem find?_attributeName (a : Attribute) (free : NodeId) :
    (a.below.nodes free).find? (·.kind == .attributeName) =
      some ⟨free, .attributeName, .tail (String.ofList a.name)⟩ := by
  simp [Attribute.below, Fragment.append, Fragment.leaf]

theorem find?_leaf? {kind kind' : Kind} (ne : kind' ≠ kind) (cs : List Char) (free : NodeId) :
    ((leaf? kind' cs).nodes free).find? (·.kind == kind) = none := by
  unfold leaf?
  split <;> simp [Fragment.none, Fragment.leaf, ne]

/-- The identity that the value of an attribute begins with. -/
def valueFree (gap inner : List Char) (free : NodeId) : NodeId :=
  free + 1 + (leaf? .whitespace gap).size + 1 + (leaf? .whitespace inner).size

/-- The node of a value. -/
def Value.node (v : Value) (free : NodeId) : Node :=
  ⟨free + v.fragment.size, .attributeValue, Content.ofNodes (v.fragment.nodes free)⟩

/-- The nodes below an attribute that is given a value. -/
theorem nodes_below_value (name gap inner : List Char) (v : Value) (free : NodeId) :
    (Attribute.mk name (.value gap inner v)).below.nodes free =
      ⟨free, .attributeName, .tail (String.ofList name)⟩ ::
        ((leaf? .whitespace gap).nodes (free + 1) ++
          ⟨free + 1 + (leaf? .whitespace gap).size, .equals, .tail "="⟩ ::
            ((leaf? .whitespace inner).nodes (free + 1 + (leaf? .whitespace gap).size + 1) ++
              [v.node (valueFree gap inner free)])) := rfl

theorem child?_attributeValue (a : Attribute) (free : NodeId) :
    (a.node free).body.child? .attributeValue =
      match a.assignment with
      | .value gap inner v => some (v.node (valueFree gap inner free))
      | _ => none := by
  obtain ⟨name, assignment⟩ := a
  rw [Attribute.node, Content.child?_ofNodes]
  cases assignment with
  | none => rfl
  | equals gap =>
    simp [Attribute.below, Fragment.append, Fragment.leaf, Assignment.fragment, find?_leaf?,
      List.find?_append]
  | value gap inner v =>
    rw [nodes_below_value]
    simp [find?_leaf?, List.find?_append, Value.node]

theorem child?_valueText (v : Value) (free : NodeId) :
    (((v.node free).body.child? .valueText).any fun m => m.body.text != "") =
      !v.content.isEmpty := by
  rw [Value.node, Content.child?_ofNodes]
  cases v with
  | bare s => cases s <;> simp [Value.fragment, Fragment.leaf, Value.content]
  | quoted q s =>
    cases s with
    | nil => rfl
    | cons c s =>
      simp [Value.fragment, Fragment.append, Fragment.leaf, leaf?, Value.content]

/-- The node of an attribute is reported if the attribute is a trigger given an expression. -/
theorem Attribute.isReported_node (a : Attribute) (free : NodeId) :
    (a.node free).isReported = a.isAssignedTrigger := by
  have named : (a.node free).body.child? .attributeName =
      some ⟨free, .attributeName, .tail (String.ofList a.name)⟩ := by
    rw [node, Content.child?_ofNodes, find?_attributeName]
  have valued := child?_attributeValue a free
  rw [Node.isReported, named, valued, isAssignedTrigger]
  cases trigger : AttributeName.isTrigger a.name with
  | false => simp [trigger]
  | true =>
    have kind : (a.node free).kind = .propertyBinding := kindOf_of_isTrigger trigger
    rw [kind]
    cases h : a.assignment with
    | none => simp [Assignment.hasExpression]
    | equals gap => simp [Assignment.hasExpression]
    | value gap inner v =>
      have text := child?_valueText v (valueFree gap inner free)
      simp [Assignment.hasExpression, trigger, text]

/-! ### Rebound attributes -/

theorem leaf?_of_ne {kind : Kind} {cs : List Char} (ne : cs ≠ []) :
    leaf? kind cs = .leaf kind (String.ofList cs) := by
  simp [leaf?, ne]

theorem ofList_squeezeBy {cs : List Char} (ne : cs ≠ []) : String.ofList (squeezeBy space cs) =
    (space (String.ofList cs)).getD (String.ofList cs) := by
  simp only [squeezeBy, List.isEmpty_iff, ne, if_false]
  cases space (String.ofList cs) with
  | none => rfl
  | some x => exact String.ofList_toList

theorem size_leaf?_squeezeBy (h : OneSpace space) (kind : Kind) (cs : List Char) :
    (leaf? kind (squeezeBy space cs)).size = (leaf? kind cs).size := by
  by_cases empty : cs = []
  · subst empty
    rfl
  · rw [leaf?_of_ne empty, leaf?_of_ne (mt ((squeezes_squeezeBy h).nil cs).1 empty)]
    rfl

/-- White space has the text that `space` gives it. -/
theorem nodes_leaf?_squeezeBy (h : OneSpace space) (cs : List Char) (free : NodeId) :
    (leaf? .whitespace (squeezeBy space cs)).nodes free =
      ((leaf? .whitespace cs).nodes free).map (Node.retext (Node.change space)) := by
  by_cases empty : cs = []
  · subst empty
    rfl
  · rw [leaf?_of_ne empty, leaf?_of_ne (mt ((squeezes_squeezeBy h).nil cs).1 empty)]
    simp [Fragment.leaf, Node.retext_leaf, Node.change, ofList_squeezeBy empty]

/-- A value keeps its text. -/
theorem retext_value (v : Value) (free : NodeId) :
    (v.node free).retext (Node.change space) = v.node free := by
  refine Node.retext_of_none rfl fun m hm => ?_
  rcases v.all_fragment free m hm with ⟨h | h, -⟩ <;> simp [Node.change, h]

theorem kindOf_brackets (name : List Char) :
    AttributeName.kindOf ('[' :: name ++ [']']) = .propertyBinding := by
  simp [AttributeName.kindOf, AttributeName.wrapped?, List.isPrefixOf?, List.isSuffixOf?]

/-- **The node of a rebound attribute is the rebound node.** -/
theorem Attribute.node_rebind (h : OneSpace space) (a : Attribute) (free : NodeId) :
    (a.rebind (squeezeBy space)).node free = (a.node free).rebind space ∧
      (a.rebind (squeezeBy space)).below.size = a.below.size := by
  by_cases assigned : a.isAssignedTrigger = true
  · have reported := (a.isReported_node free).trans assigned
    obtain ⟨t, ts, gap, inner, v, rfl, -⟩ := isAssignedTrigger_iff.1 assigned
    rw [rebind, if_pos assigned]
    have gapSize := size_leaf?_squeezeBy h .whitespace gap
    have innerSize := size_leaf?_squeezeBy h .whitespace inner
    have size : (Attribute.mk ('[' :: ('@' :: t :: ts) ++ [']'])
        (.value (squeezeBy space gap) (squeezeBy space inner) v)).below.size =
        (Attribute.mk ('@' :: t :: ts) (.value gap inner v)).below.size := by
      simp [below, Fragment.append, Assignment.fragment, gapSize, innerSize]
      rfl
    refine ⟨?_, size⟩
    have name : String.ofList ('[' :: ('@' :: t :: ts) ++ [']']) =
        "[" ++ String.ofList ('@' :: t :: ts) ++ "]" := by
      apply String.toList_inj.1
      simp
    rw [Node.rebind, if_pos reported]
    simp only [node, Assignment.squeezed]
    rw [size, kindOf_brackets, kindOf_of_isTrigger rfl, Content.retext_ofNodes, nodes_below_value,
      nodes_below_value]
    simp only [List.map_cons, List.map_append, List.map_nil, Node.retext_leaf, valueFree,
      nodes_leaf?_squeezeBy h, gapSize, innerSize, retext_value, name]
    rfl
  · have same : (a.node free).isReported = false := by
      rw [a.isReported_node free]
      simpa using assigned
    have below : (a.node free).body.rebind space = (a.node free).body := by
      refine Content.rebind_of_not_reported fun m hm => ?_
      rcases a.members_node free hm with rfl | inner
      · exact Node.isReported_of_kind (by simp)
      · exact Node.isReported_of_kind inner.binding
    rw [rebind, if_neg assigned, Node.rebind, same]
    refine ⟨?_, rfl⟩
    simp [below]

end Template

end SyntaxLint
