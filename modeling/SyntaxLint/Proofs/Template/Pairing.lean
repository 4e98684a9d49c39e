import SyntaxLint.Proofs.Template.Tags

/-!
# Proofs — Templates — end tags in forests

An end tag closes the innermost open element of its name and every element opened inside it.  So in
the forest of a template an end tag whose name is that of an element around it is the last thing in
that element, and an element that no end tag of its own closes ends with the element around it, or
where the end tag of that begins.

* `Forest.Paired`: this, where elements of given names are around the forest.
* `Stack`: what is yet to come in each of the open elements.
* `stack_grow`: the forests of a sequence of items.
* `Forest.Paired.stands`: the nodes of a forest, each with what follows it.
-/

namespace SyntaxLint.Template

open Text

variable {name : List Char} {names : List (List Char)} {F G : Forest}

namespace Forest

/-- The last thing is an end tag of a name, up to case. -/
def IsClosed (name : List Char) : Forest → Prop
  | .done => False
  | .close tag .done => sameFolded tag.name name = true
  | .comment _ next | .text _ next | .close _ next | .element _ _ next => next.IsClosed name

/-- Nothing comes after an element in the innermost of the elements around it, or only the end tag
of that. -/
def Ends (names : List (List Char)) (F : Forest) : Prop :=
  F = .done ∨ ∃ tag : EndTag, F = .close tag .done ∧ names.head?.any (sameFolded tag.name) = true

/-- Elements of the given names are around the forest, innermost first.  An end tag of one of these
names is of the first one, and nothing comes after it.  An element that is not closed by a tag of
its own ends with what is around it. -/
def Paired (names : List (List Char)) : Forest → Prop
  | .done => True
  | .comment _ next | .text _ next => next.Paired names
  | .close tag next =>
    (names.any (sameFolded tag.name) = true →
      names.head?.any (sameFolded tag.name) = true ∧ next = .done) ∧ next.Paired names
  | .element tag inside next =>
    ((tag.isClosed = true → inside = .done) ∧ inside.Paired (tag.name :: names) ∧
      (tag.isClosed = true ∨ inside.IsClosed tag.name ∨ next.Ends names)) ∧ next.Paired names

end Forest

/-! ### The forests of items -/

/-- What is yet to come in the open elements of the given names, and then in the document.  Each of
them is closed by a tag of its own, or ends with the element around it. -/
def Stack : List (List Char) → List Forest → Prop
  | [], [F] => F.Paired []
  | name :: names, F :: G :: more =>
    (F.Paired (name :: names) ∧ (F.IsClosed name ∨ G.Ends names)) ∧ Stack names (G :: more)
  | _, _ => False

variable {Fs more : List Forest}

theorem Stack.paired (h : Stack names (F :: more)) : F.Paired names := by
  match names, more with
  | [], [] => exact h
  | _ :: _, _ :: _ => exact h.1.1
  | [], _ :: _ | _ :: _, [] => exact h.elim

/-- Something that comes first in the innermost open element. -/
theorem Stack.modifyHead {f : Forest → Forest} (h : Stack names Fs)
    (paired : ∀ F : Forest, F.Paired names → (f F).Paired names)
    (closed : ∀ (F : Forest) (name : List Char), F.IsClosed name → (f F).IsClosed name) :
    Stack names (Fs.modifyHead f) := by
  match names, Fs with
  | [], [F] => exact paired F h
  | name :: names, F :: G :: more =>
    exact ⟨⟨paired F h.1.1, h.1.2.imp_left (closed F name)⟩, h.2⟩
  | [], [] | [], _ :: _ :: _ | _ :: _, [] | _ :: _, [_] => exact h.elim

/-- An element is put in front: what is yet to come in the innermost open element is inside it, and
what is yet to come around that follows it. -/
theorem Stack.element {tag : StartTag} (h : Stack (tag.name :: names) (F :: G :: more))
    (opens : ¬ tag.isClosed = true) : Stack names (.element tag F G :: more) := by
  obtain ⟨⟨paired, ends⟩, outer⟩ := h
  have element : (Forest.element tag F G).Paired names :=
    ⟨⟨fun closed => absurd closed opens, paired, .inr ends⟩, outer.paired⟩
  cases names with
  | nil =>
    cases more with
    | nil => exact element
    | cons H more => exact outer.elim
  | cons name names =>
    cases more with
    | nil => exact outer.elim
    | cons H more => exact ⟨⟨element, outer.1.2⟩, outer.2⟩

/-- At the end of the template every open element ends. -/
theorem stack_done (names : List (List Char)) :
    Stack names (List.replicate (names.length + 1) .done) := by
  induction names with
  | nil => trivial
  | cons name names ih => exact ⟨⟨trivial, .inr (.inl rfl)⟩, ih⟩

/-- An end tag closes an open element, and those inside end with it. -/
theorem stack_close {tag : EndTag} {i : Nat}
    (found : names.findIdx? (sameFolded tag.name) = some i)
    (h : Stack (names.drop (i + 1)) Fs) :
    Stack names (List.replicate i .done ++ .close tag .done :: Fs) := by
  induction names generalizing i with
  | nil => simp at found
  | cons name names ih =>
    obtain ⟨G, more, rfl⟩ : ∃ G more, Fs = G :: more := by
      cases Fs with
      | nil => cases hd : (name :: names).drop (i + 1) <;> simp [hd, Stack] at h
      | cons G more => exact ⟨G, more, rfl⟩
    rw [List.findIdx?_cons] at found
    by_cases same : sameFolded tag.name name = true
    · obtain rfl : 0 = i := by simpa [same] using found
      exact ⟨⟨⟨fun _ => ⟨same, rfl⟩, trivial⟩, .inl same⟩, h⟩
    · obtain ⟨k, later, rfl⟩ : ∃ k, names.findIdx? (sameFolded tag.name) = some k ∧ k + 1 = i := by
        simpa [same] using found
      have rest := ih later h
      cases k with
      | zero =>
        have head : names.head?.any (sameFolded tag.name) = true := by
          cases names with
          | nil => simp at later
          | cons name names => simpa [List.findIdx?_cons] using later
        exact ⟨⟨trivial, .inr (.inr ⟨tag, rfl, head⟩)⟩, rest⟩
      | succ k => exact ⟨⟨trivial, .inr (.inl rfl)⟩, rest⟩

/-- **What is yet to come in open elements is paired with them.** -/
theorem stack_grow (names : List (List Char)) (items : List Item) :
    Stack names (grow names items) := by
  induction items generalizing names with
  | nil => exact stack_done names
  | cons i items ih =>
    cases i with
    | comment inner => exact (ih names).modifyHead (fun _ h => h) fun _ _ h => h
    | text cs => exact (ih names).modifyHead (fun _ h => h) fun _ _ h => h
    | start tag =>
      rw [grow]
      by_cases closed : tag.isClosed = true
      · rw [if_pos closed]
        exact (ih names).modifyHead (fun _ h => ⟨⟨fun _ => rfl, trivial, .inl closed⟩, h⟩)
          fun _ _ h => h
      · obtain ⟨F, G, more, grown, -⟩ := exists_grow_cons tag.name names items
        have inner := ih (tag.name :: names)
        rw [grown] at inner
        rw [if_neg closed, grown, wrap]
        exact inner.element closed
    | close tag =>
      rw [grow]
      cases found : names.findIdx? (sameFolded tag.name) with
      | some i => exact stack_close found (ih _)
      | none =>
        have stray : names.any (sameFolded tag.name) = false := by
          rw [List.any_eq_false]
          simpa using found
        refine (ih names).modifyHead (fun F h => ⟨fun any => ?_, h⟩) fun F name h => ?_
        · rw [stray] at any
          simp at any
        · cases F with
          | done => exact h.elim
          | comment | text | close | element => exact h

theorem paired_plant (items : List Item) : (plant items).Paired [] := by
  have stack := stack_grow [] items
  rw [grow_nil_eq] at stack
  exact stack

/-! ### Nodes and what follows them -/

/-- A node inside elements of the given names, with the nodes that follow it in the innermost one:
a comment or text, an end tag, or an element. -/
inductive Stands (names : List (List Char)) : Node → List Node → Prop
  | leaf {n : Node} {post : List Node} (kind : n.kind = .comment ∨ n.kind = .text)
      (leaf : n.body.isLeaf = true) : Stands names n post
  | close {tag : EndTag} {free : NodeId} {post : List Node}
      (last : names.any (sameFolded tag.name) = true →
        names.head?.any (sameFolded tag.name) = true ∧ post = []) :
      Stands names (tag.below.root .endTag free) post
  | element {tag : StartTag} {inside : Forest} {free : NodeId} {post : List Node}
      (empty : tag.isClosed = true → inside = .done) (paired : inside.Paired (tag.name :: names))
      (ends : tag.isClosed = true ∨ inside.IsClosed tag.name ∨ post = [] ∨
        ∃ (tag' : EndTag) (free' : NodeId), post = [tag'.below.root .endTag free'] ∧
          names.head?.any (sameFolded tag'.name) = true) :
      Stands names (elementNode tag inside free) post

namespace Forest

variable {free : NodeId} {x : Node} {pre post : List Node}

/-- The nodes of a forest with one in front. -/
theorem stands_cons {y : Node} (here : Stands names y (F.fragment.nodes free))
    (there : ∀ {pre : List Node}, F.fragment.nodes free = pre ++ x :: post → Stands names x post)
    (split : y :: F.fragment.nodes free = pre ++ x :: post) : Stands names x post := by
  rcases List.cons_eq_append_iff.1 split with ⟨-, same⟩ | ⟨pre', -, rest⟩
  · obtain ⟨rfl, rfl⟩ := List.cons.inj same
    exact here
  · exact there rest

/-- **Every node of a paired forest stands as it should.** -/
theorem Paired.stands (h : F.Paired names) (split : F.fragment.nodes free = pre ++ x :: post) :
    Stands names x post := by
  induction F generalizing free pre with
  | done => simp [fragment, Fragment.none] at split
  | comment inner next ih => exact stands_cons (.leaf (.inl rfl) rfl) (ih h) split
  | text cs next ih => exact stands_cons (.leaf (.inr rfl) rfl) (ih h) split
  | close tag next ih =>
    refine stands_cons (.close fun any => ?_) (ih h.2) split
    obtain ⟨head, rfl⟩ := h.1 any
    exact ⟨head, rfl⟩
  | element tag inside next _ ih =>
    obtain ⟨⟨empty, paired, ends⟩, rest⟩ := h
    refine stands_cons (.element empty paired (ends.imp_right (Or.imp_right ?_))) (ih rest) split
    rintro (rfl | ⟨tag', rfl, head⟩)
    · exact .inl rfl
    · exact .inr ⟨tag', _, rfl, head⟩

/-- The last node of a forest that is closed. -/
theorem IsClosed.getLast? (h : F.IsClosed name) (free : NodeId) :
    ∃ (tag : EndTag) (free' : NodeId), sameFolded tag.name name = true ∧
      (F.fragment.nodes free).getLast? = some (tag.below.root .endTag free') := by
  have front : ∀ (y : Node) (F : Forest) (free : NodeId), (∃ (tag : EndTag) (free' : NodeId),
      sameFolded tag.name name = true ∧
        (F.fragment.nodes free).getLast? = some (tag.below.root .endTag free')) →
      ∃ (tag : EndTag) (free' : NodeId), sameFolded tag.name name = true ∧
        (y :: F.fragment.nodes free).getLast? = some (tag.below.root .endTag free') := by
    rintro y F free ⟨tag, free', same, last⟩
    exact ⟨tag, free', same, by simp [List.getLast?_cons, last]⟩
  induction F generalizing free with
  | done => exact h.elim
  | comment inner next ih => exact front _ next _ (ih h _)
  | text cs next ih => exact front _ next _ (ih h _)
  | element tag inside next _ ih => exact front _ next _ (ih h _)
  | close tag next ih =>
    cases next with
    | done => exact ⟨tag, free, h, rfl⟩
    | comment | text | close | element => exact front _ _ _ (ih h _)

end Forest

end SyntaxLint.Template
