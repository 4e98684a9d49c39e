import SyntaxLint.Proofs.Template.Lossless

/-!
# Proofs — Templates — forests

The items of a template, nested by their tags, are a forest: comments, texts and end tags that stand
alone, and elements with what is inside them.  An end tag that closes an element is the last of what
is inside it.  The tree of a template is that of its forest, and there is one for every sequence of
items; so a template has a tree as soon as its items are read.

* `Forest`: items that are nested.
* `Forest.fragment`, `Forest.adds_events`: the nodes of a forest.
* `grow`: the forests of a sequence of items, where some elements are open.
* `parse_eq_ok_iff_grow`: the tree of a template.
-/

namespace SyntaxLint.Template

open Text

/-! ### The nodes of tags -/

def TagPart.fragment : TagPart → Fragment
  | .blank s => .leaf .whitespace (String.ofList s)
  | .attr a => a.below.node (AttributeName.kindOf a.name)
  | .stray c => .leaf .error (String.ofList [c])

/-- The nodes of what stands in a start tag after its name. -/
def partsFragment : List TagPart → Fragment
  | [] => .none
  | p :: parts => p.fragment.append (partsFragment parts)

/-- What is below the node of a start tag. -/
def StartTag.below (t : StartTag) : Fragment :=
  (Fragment.leaf .tagOpen "<").append ((Fragment.leaf .tagName (String.ofList t.name)).append
    ((partsFragment t.parts).append (.leaf .tagClose (String.ofList t.closing))))

/-- What is below the node of an end tag. -/
def EndTag.below (t : EndTag) : Fragment :=
  (Fragment.leaf .tagOpen "</").append ((Fragment.leaf .tagName (String.ofList t.name)).append
    ((leaf? .whitespace t.gap).append (.leaf .tagClose ">")))

def StartTag.fragment (t : StartTag) : Fragment := t.below.node .startTag

def EndTag.fragment (t : EndTag) : Fragment := t.below.node .endTag

theorem TagPart.adds_events (p : TagPart) : Adds p.events p.fragment := by
  cases p with
  | blank s => exact .token _ _
  | attr a => exact a.adds_events
  | stray c => exact .token _ _

theorem adds_parts (parts : List TagPart) :
    Adds (parts.flatMap TagPart.events) (partsFragment parts) := by
  induction parts with
  | nil => exact .nil
  | cons p parts ih => exact p.adds_events.append ih

theorem StartTag.adds_events (t : StartTag) : Adds t.events t.fragment := by
  have adds := (Adds.token .tagOpen "<").append
    ((Adds.token .tagName (String.ofList t.name)).append
      ((adds_parts t.parts).append (.token .tagClose (String.ofList t.closing))))
  simpa [events, Template.token, fragment, below] using adds.node .startTag

theorem EndTag.adds_events (t : EndTag) : Adds t.events t.fragment := by
  have adds := (Adds.token .tagOpen "</").append
    ((Adds.token .tagName (String.ofList t.name)).append
      ((adds_token? .whitespace t.gap).append (.token .tagClose ">")))
  simpa [events, Template.token, fragment, below] using adds.node .endTag

/-! ### Forests -/

/-- Items that are nested: comments, texts, end tags that stand alone or close the element around
them, and elements with what is inside them. -/
inductive Forest where
  | done
  | comment (inner : List Char) (next : Forest)
  | text (chars : List Char) (next : Forest)
  | close (tag : EndTag) (next : Forest)
  | element (tag : StartTag) (inside : Forest) (next : Forest)
  deriving DecidableEq, Repr, Inhabited

namespace Forest

/-- The events of a forest. -/
def events : Forest → List Event
  | .done => []
  | .comment inner next => token .comment (Item.comment inner).print :: next.events
  | .text cs next => token .text cs :: next.events
  | .close tag next => tag.events ++ next.events
  | .element tag inside next =>
    .start .element :: (tag.events ++ inside.events) ++ [.finish] ++ next.events

/-- The nodes of a forest. -/
def fragment : Forest → Fragment
  | .done => .none
  | .comment inner next =>
    (Fragment.leaf .comment (String.ofList (Item.comment inner).print)).append next.fragment
  | .text cs next => (Fragment.leaf .text (String.ofList cs)).append next.fragment
  | .close tag next => tag.fragment.append next.fragment
  | .element tag inside next =>
    ((tag.fragment.append inside.fragment).node .element).append next.fragment

/-- The tree of a forest. -/
def tree (F : Forest) (identity : TreeId) : Tree where
  identity
  before := ""
  root := F.fragment.root .document 0
  after := ""

/-- The events of a forest add its nodes. -/
theorem adds_events (F : Forest) : Adds F.events F.fragment := by
  induction F with
  | done => exact .nil
  | comment inner next ih => exact (Adds.token _ _).append ih
  | text cs next ih => exact (Adds.token _ _).append ih
  | close tag next ih => exact tag.adds_events.append ih
  | element tag inside next ihi ihn => exact ((tag.adds_events.append ihi).node .element).append ihn

/-- The events of forests, each but the last the rest of an element that is finished with it. -/
def eventsOf : List Forest → List Event
  | [] => []
  | [F] => F.events
  | F :: G :: more => F.events ++ .finish :: eventsOf (G :: more)

/-- Events in front of the first forest. -/
theorem eventsOf_modifyHead {f : Forest → Forest} {es : List Event}
    (h : ∀ F : Forest, (f F).events = es ++ F.events) {Fs : List Forest} (ne : Fs ≠ []) :
    eventsOf (Fs.modifyHead f) = es ++ eventsOf Fs := by
  match Fs with
  | [] => exact absurd rfl ne
  | [F] => exact h F
  | F :: G :: more => simp [eventsOf, h F]

/-- Elements that end one after the other. -/
theorem eventsOf_replicate (n : Nat) {Fs : List Forest} (ne : Fs ≠ []) :
    eventsOf (List.replicate n .done ++ Fs) = List.replicate n .finish ++ eventsOf Fs := by
  induction n with
  | zero => rfl
  | succ n ih =>
    obtain ⟨F, more, hF⟩ : ∃ F more, List.replicate n .done ++ Fs = F :: more :=
      List.exists_cons_of_ne_nil (by simp [ne])
    rw [List.replicate_succ, List.cons_append, hF, eventsOf, ← hF, ih, List.replicate_succ]
    rfl

end Forest

/-! ### Items as forests -/

/-- An element in front of what follows it: the first forest is inside it, the second after it. -/
def wrap (tag : StartTag) : List Forest → List Forest
  | inside :: next :: more => .element tag inside next :: more
  | Fs => Fs

/-- The forests of items, where elements of the names `pending` are open, innermost first: what is
yet to come in each of these elements, and then in the document. -/
def grow (pending : List (List Char)) : List Item → List Forest
  | [] => List.replicate (pending.length + 1) .done
  | .comment inner :: items => (grow pending items).modifyHead (.comment inner)
  | .text cs :: items => (grow pending items).modifyHead (.text cs)
  | .start tag :: items =>
    if tag.isClosed then (grow pending items).modifyHead (.element tag .done)
    else wrap tag (grow (tag.name :: pending) items)
  | .close tag :: items =>
    match pending.findIdx? (sameFolded tag.name) with
    | some i =>
      List.replicate i .done ++ .close tag .done :: grow (pending.drop (i + 1)) items
    | none => (grow pending items).modifyHead (.close tag)

/-- The forest of all items of a template. -/
def plant (items : List Item) : Forest := (grow [] items).headD .done

variable {pending : List (List Char)} {items : List Item}

theorem length_grow (pending : List (List Char)) (items : List Item) :
    (grow pending items).length = pending.length + 1 := by
  induction items generalizing pending with
  | nil => simp [grow]
  | cons i items ih =>
    cases i with
    | comment inner => simp [grow, ih]
    | text cs => simp [grow, ih]
    | start tag =>
      by_cases closed : tag.isClosed = true
      · simp [grow, closed, ih]
      · have size := ih (tag.name :: pending)
        simp only [grow, closed]
        match hF : grow (tag.name :: pending) items with
        | [] => simp [hF] at size
        | [F] => simp [hF] at size
        | F :: G :: more => simpa [hF, wrap] using size
    | close tag =>
      cases found : pending.findIdx? (sameFolded tag.name) with
      | none => simp [grow, found, ih]
      | some i =>
        obtain ⟨lt, -⟩ := List.findIdx?_eq_some_iff_getElem.1 found
        simp only [grow, found, List.length_append, List.length_replicate, List.length_cons, ih,
          List.length_drop]
        omega

/-- What is yet to come in the innermost open element, and the rest. -/
theorem exists_grow (pending : List (List Char)) (items : List Item) :
    ∃ F more, grow pending items = F :: more ∧ more.length = pending.length := by
  have size := length_grow pending items
  match h : grow pending items with
  | [] => simp [h] at size
  | F :: more => exact ⟨F, more, rfl, by simpa [h] using size⟩

theorem grow_ne_nil (pending : List (List Char)) (items : List Item) :
    grow pending items ≠ [] := by
  obtain ⟨F, more, h, -⟩ := exists_grow pending items
  simp [h]

theorem grow_nil_eq (items : List Item) : grow [] items = [plant items] := by
  obtain ⟨F, more, h, size⟩ := exists_grow [] items
  obtain rfl : more = [] := List.length_eq_zero_iff.1 size
  rw [plant, h]
  rfl

/-- What is yet to come inside an element that is open, after it, and in those around it. -/
theorem exists_grow_cons (name : List Char) (pending : List (List Char)) (items : List Item) :
    ∃ F G more, grow (name :: pending) items = F :: G :: more ∧ more.length = pending.length := by
  obtain ⟨F, more, h, size⟩ := exists_grow (name :: pending) items
  obtain ⟨G, more, rfl⟩ : ∃ G more', more = G :: more' :=
    List.exists_cons_of_length_eq_add_one size
  exact ⟨F, G, more, h, by simpa using size⟩

/-- **Items are nested as their forests say.** -/
theorem nest_eq (pending : List (List Char)) (items : List Item) :
    nest pending items = Forest.eventsOf (grow pending items) := by
  induction items generalizing pending with
  | nil =>
    have ends := Forest.eventsOf_replicate pending.length (List.cons_ne_nil Forest.done [])
    rw [nest, grow, List.replicate_succ', ends]
    simp [Forest.eventsOf, Forest.events]
  | cons i items ih =>
    have front : ∀ (f : Forest → Forest) (es : List Event),
        (∀ F : Forest, (f F).events = es ++ F.events) →
          Forest.eventsOf ((grow pending items).modifyHead f) = es ++ nest pending items :=
      fun f es h => by rw [Forest.eventsOf_modifyHead h (grow_ne_nil pending items), ih]
    cases i with
    | comment inner => exact (front (.comment inner) [_] fun F => rfl).symm
    | text cs => exact (front (.text cs) [_] fun F => rfl).symm
    | start tag =>
      by_cases closed : tag.isClosed = true
      · have self : ∀ F : Forest, (Forest.element tag .done F).events =
            (.start .element :: tag.events ++ [.finish]) ++ F.events := fun F => by
          simp [Forest.events]
        rw [nest, grow, if_pos closed, if_pos closed, front _ _ self]
        simp
      · obtain ⟨F, G, more, hF, -⟩ := exists_grow_cons tag.name pending items
        rw [nest, grow, if_neg closed, if_neg closed, ih, hF, wrap, Forest.eventsOf]
        cases more <;> simp [Forest.eventsOf, Forest.events]
    | close tag =>
      cases found : pending.findIdx? (sameFolded tag.name) with
      | none =>
        rw [nest, grow, found]
        exact (front (.close tag) tag.events fun F => rfl).symm
      | some i =>
        obtain ⟨F, more, hF, -⟩ := exists_grow (pending.drop (i + 1)) items
        rw [nest, grow, found]
        simp only
        rw [Forest.eventsOf_replicate i (List.cons_ne_nil _ _), ih, hF, Forest.eventsOf]
        simp [Forest.events]

/-- The events of items describe the node of their forest, whatever the items are. -/
theorem finishes_documentEvents (items : List Item) :
    (Building.empty.run (documentEvents items)).Finishes
      ((plant items).fragment.root .document 0) := by
  obtain ⟨offset, run⟩ := (plant items).adds_events 0 0 ⟨.document, []⟩ [] none
  have state : (Building.empty.step (.start .document)).run (nest [] items) =
      ⟨offset, 0 + (plant items).fragment.size,
        [⟨.document, ((plant items).fragment.nodes 0).reverse ++ []⟩], none, none⟩ := by
    rw [nest_eq, grow_nil_eq]
    exact run
  rw [run_documentEvents, state]
  refine (finishes_finish rfl).2 ⟨rfl, ?_⟩
  simp [Fragment.root]

/-- The tree of items that offsets reach is that of their forest. -/
theorem ofEvents_documentEvents (identity : TreeId) {items : List Item}
    (short : Event.width (documentEvents items) < 2 ^ 32) :
    Tree.ofEvents identity (documentEvents items) = .ok ((plant items).tree identity) :=
  (Tree.ofEvents_eq_ok_iff short).2 ⟨_, finishes_documentEvents items, rfl⟩

/-- **A template that offsets reach has a tree as soon as its items are read**, and it is that of
their forest. -/
theorem parse_eq_ok_iff_grow {identity : TreeId} {source : String} {t : Tree}
    (short : source.utf8ByteSize < 2 ^ 32) :
    parse identity source = .ok t ↔
      ∃ items, scan source.toList = .ok items ∧ t = (plant items).tree identity := by
  rw [parse_eq_ok_iff_finishes short]
  constructor
  · rintro ⟨items, root, read, finishes, rfl⟩
    have same := finishes.root.symm.trans (finishes_documentEvents items).root
    exact ⟨items, read, congrArg (Tree.ofRoot identity) (Option.some.inj same)⟩
  · rintro ⟨items, read, rfl⟩
    exact ⟨items, _, read, finishes_documentEvents items, rfl⟩

end SyntaxLint.Template
