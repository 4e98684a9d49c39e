import SyntaxLint.Proofs.Template.Forest
import SyntaxLint.Proofs.Tree.Swap

/-!
# Proofs — Templates — where attributes stand

A forest has its items in the order in which they are written, and how they are nested is told by
the names of tags and by which of them close themselves.  So an attribute of a start tag may be
given another assignment without a change of anything else, in the template as in its tree; and
every property binding of the tree is an attribute that stands somewhere in the template.

* `Forest.items`, `plant_items_of_shell`: the items of a forest, and forests with other tags.
* `Site`: a place for an attribute in a template.
* `exists_site`: the place of a binding, and what another assignment there makes of the tree.
-/

namespace SyntaxLint.Template

open Text

/-! ### The items of a forest -/

namespace Forest

/-- The items of a forest. -/
def items : Forest → List Item
  | .done => []
  | .comment inner next => .comment inner :: next.items
  | .text cs next => .text cs :: next.items
  | .close tag next => .close tag :: next.items
  | .element tag inside next => .start tag :: inside.items ++ next.items

/-- The text of the events of a forest is that of its items. -/
theorem chars_events (F : Forest) :
    F.events.flatMap Event.chars = F.items.flatMap Item.print := by
  induction F with
  | done => rfl
  | comment inner next ih => simp [events, items, Item.print, token, Event.chars, ih]
  | text cs next ih => simp [events, items, Item.print, token, Event.chars, ih]
  | close tag next ih => simp [events, items, Item.print, EndTag.chars_events, ih]
  | element tag inside next ihi ihn =>
    simp [events, items, Item.print, StartTag.chars_events, Event.chars, ihi, ihn]

end Forest

theorem flatMap_items_modifyHead {f : Forest → Forest} {items : List Item}
    (h : ∀ F : Forest, (f F).items = items ++ F.items) {Fs : List Forest} (ne : Fs ≠ []) :
    (Fs.modifyHead f).flatMap Forest.items = items ++ Fs.flatMap Forest.items := by
  obtain ⟨F, more, rfl⟩ := List.exists_cons_of_ne_nil ne
  simp [h]

/-- Nesting keeps all items and their order. -/
theorem flatMap_items_grow (pending : List (List Char)) (items : List Item) :
    (grow pending items).flatMap Forest.items = items := by
  induction items generalizing pending with
  | nil => simp [grow, Forest.items, List.flatMap_replicate]
  | cons i items ih =>
    have front : ∀ f : Forest → Forest, (∀ F : Forest, (f F).items = [i] ++ F.items) →
        ((grow pending items).modifyHead f).flatMap Forest.items = i :: items := fun f h => by
      rw [flatMap_items_modifyHead h (grow_ne_nil pending items), ih]
      rfl
    cases i with
    | comment inner => exact front (.comment inner) fun F => rfl
    | text cs => exact front (.text cs) fun F => rfl
    | start tag =>
      rw [grow]
      split
      · exact front (.element tag .done) fun F => rfl
      · obtain ⟨F, G, more, hF, -⟩ := exists_grow_cons tag.name pending items
        have all := ih (tag.name :: pending)
        rw [hF] at all ⊢
        simpa [wrap, Forest.items] using all
    | close tag =>
      rw [grow]
      cases pending.findIdx? (sameFolded tag.name) with
      | none => exact front (.close tag) fun F => rfl
      | some i => simp [Forest.items, List.flatMap_replicate, ih]

theorem items_plant (items : List Item) : (plant items).items = items := by
  simpa [grow_nil_eq] using flatMap_items_grow [] items

/-! ### Tags without what stands in them -/

/-- The tag without what stands in it after its name. -/
def StartTag.shell (t : StartTag) : StartTag := { t with parts := [] }

def Item.shell : Item → Item
  | .start tag => .start tag.shell
  | i => i

/-- The forest in which nothing stands in start tags after their names. -/
def Forest.shell : Forest → Forest
  | .done => .done
  | .comment inner next => .comment inner next.shell
  | .text cs next => .text cs next.shell
  | .close tag next => .close tag next.shell
  | .element tag inside next => .element tag.shell inside.shell next.shell

theorem Forest.items_shell (F : Forest) : F.shell.items = F.items.map Item.shell := by
  induction F with
  | done => rfl
  | comment _ _ ih | text _ _ ih | close _ _ ih => simp [shell, items, Item.shell, ih]
  | element tag inside next ihi ihn => simp [shell, items, Item.shell, ihi, ihn]

theorem map_modifyHead {f g : Forest → Forest} (h : ∀ F : Forest, (f F).shell = g F.shell)
    (Fs : List Forest) :
    (Fs.modifyHead f).map Forest.shell = (Fs.map Forest.shell).modifyHead g := by
  cases Fs <;> simp [h]

/-- **How items are nested is not told by what stands in start tags.** -/
theorem grow_shell (pending : List (List Char)) (items : List Item) :
    grow pending (items.map Item.shell) = (grow pending items).map Forest.shell := by
  induction items generalizing pending with
  | nil => simp [grow, Forest.shell]
  | cons i items ih =>
    have front : ∀ f g : Forest → Forest, (∀ F : Forest, (f F).shell = g F.shell) →
        (grow pending (items.map Item.shell)).modifyHead g =
          ((grow pending items).modifyHead f).map Forest.shell :=
      fun f g h => by rw [ih, map_modifyHead h]
    cases i with
    | comment inner => exact front (.comment inner) _ fun F => rfl
    | text cs => exact front (.text cs) _ fun F => rfl
    | start tag =>
      have same : tag.shell.isClosed = tag.isClosed := rfl
      rw [List.map_cons, Item.shell, grow, grow, same]
      split
      · exact front (.element tag .done) _ fun F => rfl
      · obtain ⟨F, G, more, hF, -⟩ := exists_grow_cons tag.name pending items
        have all := ih (tag.name :: pending)
        rw [hF] at all ⊢
        rw [show tag.shell.name = tag.name from rfl, all]
        rfl
    | close tag =>
      change grow pending (.close tag :: items.map Item.shell) = _
      rw [grow, grow]
      cases pending.findIdx? (sameFolded tag.name) with
      | none => exact front (.close tag) (.close tag) fun F => rfl
      | some i => simp [Forest.shell, ih]

theorem plant_shell (items : List Item) :
    plant (items.map Item.shell) = (plant items).shell := by
  simpa [grow_nil_eq] using grow_shell [] items

/-- A forest is told by its items and how they are nested. -/
theorem Forest.eq_of_shell {F G : Forest} (shell : F.shell = G.shell) (items : F.items = G.items) :
    F = G := by
  induction F generalizing G with
  | done => cases G <;> simp_all [Forest.shell]
  | comment _ _ ih | text _ _ ih | close _ _ ih =>
    cases G <;> simp [Forest.shell, Forest.items] at shell items ⊢
    exact ⟨items.1, ih shell.2 items.2⟩
  | element tag inside next ihi ihn =>
    cases G <;> simp [Forest.shell, Forest.items] at shell items ⊢
    rename_i tag' inside' next'
    have size : inside.items.length = inside'.items.length := by
      have sizes := congrArg (fun F : Forest => F.items.length) shell.2.1
      simpa [Forest.items_shell] using sizes
    obtain ⟨same, same'⟩ := List.append_inj items.2 size
    exact ⟨items.1, ihi shell.2.1 same, ihn shell.2.2 same'⟩

/-- **Other tags of the same names nest alike.** -/
theorem plant_items_of_shell {F G : Forest} (h : plant F.items = F) (same : G.shell = F.shell) :
    plant G.items = G := by
  refine Forest.eq_of_shell ?_ (items_plant G.items)
  rw [← plant_shell, ← Forest.items_shell, same, Forest.items_shell, plant_shell, h]

/-! ### Sites -/

/-- A place for an attribute in a start tag of a template. -/
structure Site where
  before : List Item
  name : List Char
  left : List TagPart
  right : List TagPart
  selfClosing : Bool
  after : List Item

namespace Site

variable (s : Site) (a : Attribute)

/-- The start tag with an attribute at the place. -/
def tag : StartTag := ⟨s.name, s.left ++ .attr a :: s.right, s.selfClosing⟩

/-- The items with an attribute at the place. -/
def items : List Item := s.before ++ .start (s.tag a) :: s.after

/-- The text before the place. -/
def head : List Char :=
  s.before.flatMap Item.print ++ '<' :: s.name ++ s.left.flatMap TagPart.print

/-- The text after the place. -/
def rest : List Char := printParts s.right s.selfClosing (s.after.flatMap Item.print)

theorem print_items : (s.items a).flatMap Item.print = s.head ++ a.print ++ s.rest := by
  simp [items, head, rest, tag, printParts, Item.print, StartTag.print, StartTag.closing,
    TagPart.print]

end Site

/-! ### Bindings in tags -/

open Content (ofNodes)

variable {free start k : Nat} {parent : Option NodeId} {p : Placed} {F : Forest} {s : Site}
  {a : Attribute}

theorem width_of_adds {es : List Event} {x : Fragment} (h : Adds es x) (free : NodeId) :
    (ofNodes (x.nodes free)).width = bytes (es.flatMap Event.chars) := by
  rw [Content.width_eq, ← h.text free, bytes_toList]

/-- A fragment without bindings. -/
theorem kind_ne_of_all {x : Fragment} (h : x.All fun n => n.kind ≠ .propertyBinding)
    (hp : p ∈ (ofNodes (x.nodes free)).preorder start parent) : p.kind ≠ .propertyBinding :=
  h free p.toNode (Content.toNode_mem_members hp)

theorem all_leaf_ne {kind : Kind} (ne : kind ≠ .propertyBinding) (text : String) :
    (Fragment.leaf kind text).All fun n => n.kind ≠ .propertyBinding :=
  .leaf fun _ => ne

theorem EndTag.all_ne (tag : EndTag) :
    tag.fragment.All fun n => n.kind ≠ .propertyBinding :=
  .node (fun n h => by simp [h]) ((all_leaf_ne (by simp) _).append ((all_leaf_ne (by simp) _).append
    ((all_leaf? fun _ _ => by simp).append (all_leaf_ne (by simp) _))))

/-- Another assignment for an attribute. -/
def Attribute.given (a : Attribute) (b : Assignment) : Attribute := ⟨a.name, b⟩

/-- Fragments that differ in the assignment of one attribute. -/
def Attribute.Swaps (a : Attribute) (b : Assignment) (k : Nat) (x y : Fragment) : Prop :=
  Fragment.Swaps (AttributeName.kindOf a.name) a.below (a.given b).below k x y

/-- The part of a tag that a binding is. -/
theorem exists_part {parts : List TagPart}
    (hp : p ∈ (ofNodes ((partsFragment parts).nodes free)).preorder start parent)
    (binding : p.kind = .propertyBinding) : ∃ left a right k, parts = left ++ .attr a :: right ∧
      p.toNode = a.node (free + k) ∧ p.start = start + bytes (left.flatMap TagPart.print) ∧
      ∀ b, a.Swaps b k (partsFragment parts)
        (partsFragment (left ++ .attr (a.given b) :: right)) := by
  induction parts generalizing free start with
  | nil => simp [partsFragment, Fragment.none, ofNodes, Content.preorder] at hp
  | cons q parts ih =>
    rcases Fragment.mem_append.1 hp with hp | hp
    · cases q with
      | blank cs => exact absurd binding (kind_ne_of_all (all_leaf_ne (by simp) _) hp)
      | stray c => exact absurd binding (kind_ne_of_all (all_leaf_ne (by simp) _) hp)
      | attr a =>
        rcases Fragment.mem_node.1 hp with rfl | hp
        · exact ⟨[], a, parts, 0, rfl, rfl, by simp,
            fun b => .before _ (adds_parts parts).steady .here⟩
        · -- nothing below an attribute is a binding
          exfalso
          rcases a.members_node free (Content.toNode_mem_members hp) with e | inner
          · have kind : p.kind = .attributeName := by rw [e]
            simp [kind] at binding
          · exact inner.binding binding
    · obtain ⟨left, a, right, k, rfl, node, place, swaps⟩ := ih hp
      refine ⟨q :: left, a, right, q.fragment.size + k, rfl, ?_, ?_, fun b => ?_⟩
      · rw [node, Nat.add_assoc]
      · rw [place, width_of_adds q.adds_events, q.chars_events, List.flatMap_cons,
          bytes_append, Nat.add_assoc]
      · exact .after _ q.adds_events.steady (swaps b)

/-! ### Bindings in forests -/

/-- Where a binding of a forest stands: it is the node of the attribute `a` at the site `s`, `k`
identities are given out before those of the attribute, and another assignment for the attribute
makes the forest of the items with that assignment. -/
structure Forest.Sited (F : Forest) (free start : Nat) (p : Placed) (s : Site) (a : Attribute)
    (k : Nat) : Prop where
  items : F.items = s.items a
  node : p.toNode = a.node (free + k)
  start : p.start = start + bytes s.head
  swap : ∀ b, ∃ G : Forest, G.items = s.items (a.given b) ∧ G.shell = F.shell ∧
    a.Swaps b k F.fragment G.fragment

/-- What is around a forest: something in front of it, or the element it is inside of. -/
inductive Layer where
  | comment (inner : List Char)
  | text (chars : List Char)
  | close (tag : EndTag)
  | behind (tag : StartTag) (inside : Forest)
  | within (tag : StartTag) (next : Forest)

namespace Layer

/-- A forest with what is around it. -/
def fill : Layer → Forest → Forest
  | .comment inner, F => .comment inner F
  | .text cs, F => .text cs F
  | .close tag, F => .close tag F
  | .behind tag inside, F => .element tag inside F
  | .within tag next, F => .element tag F next

/-- The items in front of a forest. -/
def before : Layer → List Item
  | .comment inner => [.comment inner]
  | .text cs => [.text cs]
  | .close tag => [.close tag]
  | .behind tag inside => .start tag :: inside.items
  | .within tag _ => [.start tag]

/-- The items behind a forest. -/
def after : Layer → List Item
  | .within _ next => next.items
  | _ => []

/-- The nodes in front of a forest. -/
def front : Layer → Fragment
  | .comment inner => .leaf .comment (String.ofList (Item.comment inner).print)
  | .text cs => .leaf .text (String.ofList cs)
  | .close tag => tag.fragment
  | .behind tag inside => (tag.fragment.append inside.fragment).node .element
  | .within tag _ => tag.fragment

theorem exists_adds (l : Layer) :
    ∃ es, Adds es l.front ∧ es.flatMap Event.chars = l.before.flatMap Item.print := by
  cases l with
  | comment inner => exact ⟨_, .token _ _, by simp [before, Event.chars]⟩
  | text cs => exact ⟨_, .token _ _, by simp [before, Event.chars, Item.print]⟩
  | close tag => exact ⟨_, tag.adds_events, by simp [before, tag.chars_events, Item.print]⟩
  | behind tag inside =>
    refine ⟨_, (tag.adds_events.append inside.adds_events).node .element, ?_⟩
    simp [before, Event.chars, tag.chars_events, inside.chars_events, Item.print]
  | within tag next => exact ⟨_, tag.adds_events, by simp [before, tag.chars_events, Item.print]⟩

theorem width_front (l : Layer) (free : NodeId) :
    (ofNodes (l.front.nodes free)).width = bytes (l.before.flatMap Item.print) := by
  obtain ⟨es, adds, text⟩ := l.exists_adds
  rw [width_of_adds adds, text]

theorem steady_front (l : Layer) : l.front.Steady := by
  obtain ⟨es, adds, -⟩ := l.exists_adds
  exact adds.steady

theorem items_fill (l : Layer) (F : Forest) :
    (l.fill F).items = l.before ++ F.items ++ l.after := by
  cases l <;> simp [fill, before, after, Forest.items]

theorem shell_fill (l : Layer) {F G : Forest} (same : G.shell = F.shell) :
    (l.fill G).shell = (l.fill F).shell := by
  cases l <;> simp [fill, Forest.shell, same]

theorem swaps_fill (l : Layer) {F G : Forest} {b : Assignment}
    (h : a.Swaps b k F.fragment G.fragment) :
    a.Swaps b (l.front.size + k) (l.fill F).fragment (l.fill G).fragment := by
  have after := Fragment.Swaps.after l.front l.steady_front h
  cases l with
  | within tag next => exact .before _ next.adds_events.steady (.inside .element after)
  | comment | text | close | behind => exact after

end Layer

/-- A binding of a forest stands where it does with something around the forest. -/
theorem Forest.Sited.fill (l : Layer)
    (h : F.Sited (free + l.front.size) (start + bytes (l.before.flatMap Item.print)) p s a k) :
    (l.fill F).Sited free start p
      { s with before := l.before ++ s.before, after := s.after ++ l.after } a
      (l.front.size + k) := by
  constructor
  case items =>
    rw [l.items_fill, h.items]
    simp [Site.items, Site.tag]
  case node => rw [h.node, Nat.add_assoc]
  case start =>
    rw [h.start, Nat.add_assoc, ← bytes_append]
    simp [Site.head]
  case swap =>
    intro b
    obtain ⟨G, items, shell, swaps⟩ := h.swap b
    refine ⟨l.fill G, ?_, l.shell_fill shell, l.swaps_fill swaps⟩
    rw [l.items_fill, items]
    simp [Site.items, Site.tag]

theorem exists_sited_fill (l : Layer)
    (h : ∃ s a k,
      F.Sited (free + l.front.size) (start + bytes (l.before.flatMap Item.print)) p s a k) :
    ∃ s a k, (l.fill F).Sited free start p s a k := by
  obtain ⟨s, a, k, h⟩ := h
  exact ⟨_, a, _, h.fill l⟩

/-- A binding in a start tag. -/
theorem exists_sited_of_tag {tag : StartTag} {inside next : Forest}
    (hp : p ∈ (ofNodes (tag.fragment.nodes free)).preorder start parent)
    (binding : p.kind = .propertyBinding) :
    ∃ s a k, (Forest.element tag inside next).Sited free start p s a k := by
  obtain ⟨name, parts, closed⟩ := tag
  -- the leaves of the tag apart, it is in one of the parts
  rcases Fragment.mem_node.1 hp with rfl | hp
  · simp [Fragment.root] at binding
  rcases Fragment.mem_append.1 hp with hp | hp
  · exact absurd binding (kind_ne_of_all (all_leaf_ne (by simp) _) hp)
  rcases Fragment.mem_append.1 hp with hp | hp
  · exact absurd binding (kind_ne_of_all (all_leaf_ne (by simp) _) hp)
  rcases Fragment.mem_append.1 hp with hp | hp
  swap
  · exact absurd binding (kind_ne_of_all (all_leaf_ne (by simp) _) hp)
  obtain ⟨left, a, right, k, rfl, node, place, swaps⟩ := exists_part hp binding
  refine ⟨⟨[], name, left, right, closed, inside.items ++ next.items⟩, a, 1 + (1 + k),
    ⟨rfl, ?_, ?_, fun b => ⟨.element ⟨name, left ++ .attr (a.given b) :: right, closed⟩ inside next,
      rfl, rfl, ?_⟩⟩⟩
  · rw [node, Nat.add_assoc, Nat.add_assoc]
    rfl
  · rw [place]
    simp [Fragment.leaf, ofNodes, Content.width, utf8ByteSize_ofList, Site.head, Nat.add_assoc]
    rfl
  · have steady : ∀ kind text, (Fragment.leaf kind text).Steady :=
      fun kind text => (Adds.token kind text).steady
    exact .before _ next.adds_events.steady (.inside .element
      (.before _ inside.adds_events.steady (.inside .startTag
        (.after _ (steady _ _) (.after _ (steady _ _) (.before _ (steady _ _) (swaps b)))))))

/-- **Every binding of a forest stands somewhere.** -/
theorem Forest.exists_sited
    (hp : p ∈ (ofNodes (F.fragment.nodes free)).preorder start parent)
    (binding : p.kind = .propertyBinding) : ∃ s a k, F.Sited free start p s a k := by
  induction F generalizing free start parent with
  | done => simp [fragment, Fragment.none, ofNodes, Content.preorder] at hp
  | comment inner next ih =>
    rcases Fragment.mem_append.1 hp with hp | hp
    · exact absurd binding (kind_ne_of_all (all_leaf_ne (by simp) _) hp)
    · exact exists_sited_fill (.comment inner) (ih ((Layer.comment inner).width_front free ▸ hp))
  | text cs next ih =>
    rcases Fragment.mem_append.1 hp with hp | hp
    · exact absurd binding (kind_ne_of_all (all_leaf_ne (by simp) _) hp)
    · exact exists_sited_fill (.text cs) (ih ((Layer.text cs).width_front free ▸ hp))
  | close tag next ih =>
    rcases Fragment.mem_append.1 hp with hp | hp
    · exact absurd binding (kind_ne_of_all tag.all_ne hp)
    · exact exists_sited_fill (.close tag) (ih ((Layer.close tag).width_front free ▸ hp))
  | element tag inside next ihi ihn =>
    rcases Fragment.mem_append.1 hp with hp | hp
    · rcases Fragment.mem_node.1 hp with rfl | hp
      · simp [Fragment.root] at binding
      rcases Fragment.mem_append.1 hp with hp | hp
      · exact exists_sited_of_tag hp binding
      · exact exists_sited_fill (.within tag next)
          (ihi ((Layer.within tag next).width_front free ▸ hp))
    · exact exists_sited_fill (.behind tag inside)
        (ihn ((Layer.behind tag inside).width_front free ▸ hp))

/-! ### Bindings in templates -/

/-- **Every binding of a template is an attribute that stands somewhere in it.**  Where the content
of the binding is changed to that of another assignment, the tree is that of the template with this
assignment, up to identities. -/
theorem exists_site {items : List Item} {identity : TreeId}
    (hp : p ∈ ((plant items).tree identity).nodes) (binding : p.kind = .propertyBinding) :
    ∃ (s : Site) (a : Attribute), items = s.items a ∧ (∃ free, p.toNode = a.node free) ∧
      p.start = bytes s.head ∧ ∀ (b : Assignment) (f : Content → Content),
        (∀ free free', (f (ofNodes (a.below.nodes free))).anon =
          (ofNodes ((a.given b).below.nodes free')).anon) →
        (((plant items).tree identity).alter p.id f).document =
          ((plant (s.items (a.given b))).tree identity).document := by
  have numbered : ((plant items).tree identity).Numbered :=
    (finishes_documentEvents items).numbered
  have nodup := numbered.nodup
  rcases Fragment.mem_node.1 hp with rfl | hp
  · simp [Fragment.root] at binding
  obtain ⟨s, a, k, sited⟩ := Forest.exists_sited hp binding
  refine ⟨s, a, (items_plant items).symm.trans sited.items, ⟨_, sited.node⟩,
    sited.start.trans (Nat.zero_add _), fun b f same => Tree.document_eq_of_anon ?_⟩
  obtain ⟨G, content, shell, swaps⟩ := sited.swap b
  have planted : plant (s.items (a.given b)) = G := by
    rw [← content]
    exact plant_items_of_shell (by rw [items_plant]) shell
  have id : p.id = 0 + k + a.below.size := by rw [sited.node]; rfl
  rw [Tree.content_alter, planted, id]
  exact (swaps.inside .document).anon_alter nodup (same _) 0

end SyntaxLint.Template
