import SyntaxLint.Proofs.Tree.Building
import SyntaxLint.Proofs.Tree.Refit
import SyntaxLint.Tree.Outline

/-!
# Proofs — Trees — swapped nodes

Identities are given out in the order in which nodes are built, so one node more or less changes
those of all that follow.  Nothing else is changed: what is built from the same events is the same
up to identities, and so is the stored form of a tree.  Where one node of a fragment is swapped for
another of its kind, the result is the fragment with the content of that node changed, up to
identities.

* `Content.anon`, `Tree.document_eq_of_anon`: a run without its identities.
* `Building.anon_step`, `Adds.steady`: one event, and what a sequence of events adds.
* `Fragment.Swaps`, `Fragment.Swaps.anon_alter`: fragments that differ in one node.
-/

namespace SyntaxLint

/-- The run without its identities: all are 0. -/
def Content.anon : Content → Content
  | .tail s => .tail s
  | .node gap _ kind body next => .node gap 0 kind body.anon next.anon

/-- The node without its identity and those below it. -/
def Node.anon (n : Node) : Node := ⟨0, n.kind, n.body.anon⟩

namespace Content

@[simp] theorem anon_anon (c : Content) : c.anon.anon = c.anon := by
  induction c with
  | tail s => rfl
  | node gap id kind body next ihb ihn => rw [anon, anon, ihb, ihn]

@[simp] theorem text_anon (c : Content) : c.anon.text = c.text := by
  induction c with
  | tail s => rfl
  | node gap id kind body next ihb ihn => rw [anon, text_node, text_node, ihb, ihn]

@[simp] theorem width_anon (c : Content) : c.anon.width = c.width := by
  rw [width_eq, width_eq, text_anon]

theorem outline_anon (c : Content) (start : Nat) : c.anon.outline start = c.outline start := by
  induction c generalizing start with
  | tail s => rfl
  | node gap id kind body next ihb ihn => rw [anon, outline, outline, width_anon, ihb, ihn]

theorem anon_ofNodes (ns : List Node) : (ofNodes ns).anon = ofNodes (ns.map Node.anon) := by
  induction ns with
  | nil => rfl
  | cons n ns ih => rw [ofNodes, anon, ih, List.map_cons, ofNodes, Node.anon]

theorem refit_ofNodes (g : Node → Option Content) (ns : List Node) :
    (ofNodes ns).refit g = ofNodes (ns.map (Node.refit g)) := by
  induction ns with
  | nil => rfl
  | cons n ns ih => rw [ofNodes, refit, ih, List.map_cons, ofNodes, Node.refit]

theorem preorder_ofNodes_append (ns ms : List Node) (start : Nat) (parent : Option NodeId) :
    (ofNodes (ns ++ ms)).preorder start parent = (ofNodes ns).preorder start parent ++
      (ofNodes ms).preorder (start + (ofNodes ns).width) parent := by
  induction ns generalizing start with
  | nil => simp [ofNodes, preorder, width]
  | cons n ns ih => simp [ofNodes, preorder, width, ih, Nat.add_assoc]

end Content

@[simp] theorem Node.anon_anon (n : Node) : n.anon.anon = n.anon := by simp [anon]

/-- A new content for the node of one identity. -/
def Node.only (target : NodeId) (f : Content → Content) (n : Node) : Option Content :=
  if n.id = target then some (f n.body) else none

/-- Nothing is changed beside that node. -/
theorem Node.refit_only {target : NodeId} {f : Content → Content} {n : Node}
    (out : target ∉ n.ids) : n.refit (Node.only target f) = n := by
  obtain ⟨apart, below⟩ : target ≠ n.id ∧ target ∉ n.body.ids := by simpa [ids] using out
  have same : n.body.refit (Node.only target f) = n.body := by
    refine Content.refit_of_same fun m hm x new => ?_
    have ne : m.id ≠ target := fun e => below (e ▸ Content.id_mem_of_mem_members hm)
    simp [only, ne] at new
  rw [refit, only, if_neg (Ne.symm apart), Option.getD_none, same]

theorem Node.anon_refit_only {target : NodeId} {f : Content → Content} {ns : List Node}
    (out : target ∉ ns.flatMap Node.ids) :
    ns.map (fun n => (n.refit (Node.only target f)).anon) = ns.map Node.anon :=
  List.map_congr_left fun n hn => by
    rw [Node.refit_only fun mem => out (List.mem_flatMap.2 ⟨n, hn, mem⟩)]

/-- **The stored form of a tree does not depend on identities.** -/
theorem Tree.document_eq_of_anon {t u : Tree} (same : t.content.anon = u.content.anon) :
    t.document = u.document := by
  obtain ⟨before, -, kind, body, after⟩ : t.before = u.before ∧ 0 = 0 ∧ t.root.kind = u.root.kind ∧
      t.root.body.anon = u.root.body.anon ∧ t.after = u.after := by
    simpa [Tree.content, Content.anon] using same
  have text : t.source = u.source := by
    rw [Tree.source, Tree.source, ← Content.text_anon, same, Content.text_anon]
  have width : t.root.body.width = u.root.body.width := by
    rw [← Content.width_anon, body, Content.width_anon]
  have below : t.root.body.outline u.top.span.start = u.root.body.outline u.top.span.start := by
    rw [← Content.outline_anon, body, Content.outline_anon]
  have top : t.top.span = u.top.span := by simp [Tree.top, Placed.span, before, width]
  rw [Tree.document, Tree.document, Tree.outline, Tree.outline, text, kind, top, below]

/-! ### Building -/

def OpenNode.anon (m : OpenNode) : OpenNode := ⟨m.kind, m.children.map Node.anon⟩

namespace Building

/-- The state without the identities given out. -/
def anon (b : Building) : Building :=
  { b with free := 0, pending := b.pending.map OpenNode.anon, root := b.root.map Node.anon }

/-- **What one event does is the same up to identities.** -/
theorem anon_step (b : Building) (e : Event) : (b.step e).anon = (b.anon.step e).anon := by
  have twice : Node.anon ∘ Node.anon = Node.anon := funext Node.anon_anon
  obtain ⟨offset, free, pending, root, fault⟩ := b
  cases e with
  | start kind =>
    cases root <;> simp [step, anon, fail, OpenNode.anon, twice]
  | token kind text =>
    cases pending <;> simp [step, anon, fail, OpenNode.anon, twice, Node.anon, Content.anon]
  | finish =>
    cases pending with
    | nil => simp [step, anon, fail, twice]
    | cons m rest =>
      cases rest <;>
        simp [step, anon, OpenNode.anon, twice, Node.anon, Content.anon_ofNodes]

/-- What a sequence of events does is the same up to identities. -/
theorem anon_run (b : Building) (es : List Event) : (b.run es).anon = (b.anon.run es).anon := by
  induction es generalizing b with
  | nil => simp [run, anon, Function.comp_def, OpenNode.anon]
  | cons e es ih =>
    change ((b.step e).run es).anon = ((b.anon.step e).run es).anon
    rw [ih, anon_step, ← ih]

end Building

/-- The nodes of a fragment are the same up to identities, whichever is the first. -/
def Fragment.Steady (a : Fragment) : Prop :=
  ∀ free free', (a.nodes free).map Node.anon = (a.nodes free').map Node.anon

/-- What a sequence of events adds is the same up to identities. -/
theorem Adds.steady {es : List Event} {a : Fragment} (h : Adds es a) : a.Steady := by
  intro free free'
  obtain ⟨offset, run⟩ := h 0 free ⟨.document, []⟩ [] none
  obtain ⟨offset', run'⟩ := h 0 free' ⟨.document, []⟩ [] none
  have same := Building.anon_run ⟨0, free, [⟨.document, []⟩], none, none⟩ es
  have same' := Building.anon_run ⟨0, free', [⟨.document, []⟩], none, none⟩ es
  have both := same.trans (Eq.symm same')
  rw [run, run'] at both
  have nodes := (Building.mk.inj both).2.2.1
  simpa [OpenNode.anon] using nodes

/-- The text of what a sequence of events adds is the text of the events. -/
theorem Adds.text {es : List Event} {a : Fragment} (h : Adds es a) (free : NodeId) :
    (Content.ofNodes (a.nodes free)).text.toList = es.flatMap Event.chars := by
  obtain ⟨offset, run⟩ := h 0 free ⟨.document, []⟩ [] none
  have text := Building.chars_run (b := ⟨0, free, [⟨.document, []⟩], none, none⟩)
    ⟨rfl, by simp⟩ es (by rw [run])
  rw [run] at text
  rw [Content.toList_text_ofNodes]
  simpa [Building.chars, OpenNode.chars] using text

/-! ### Swapped fragments -/

namespace Fragment

variable {kind : Kind} {u v x y a b : Fragment} {k : Nat} {free : NodeId} {p : Placed} {start : Nat}
  {parent : Option NodeId}

theorem mem_append : p ∈ (Content.ofNodes ((a.append b).nodes free)).preorder start parent ↔
    p ∈ (Content.ofNodes (a.nodes free)).preorder start parent ∨
      p ∈ (Content.ofNodes (b.nodes (free + a.size))).preorder
        (start + (Content.ofNodes (a.nodes free)).width) parent := by
  rw [append, Content.preorder_ofNodes_append, List.mem_append]

theorem mem_node : p ∈ (Content.ofNodes ((a.node kind).nodes free)).preorder start parent ↔
    p = ⟨a.root kind free, start, parent⟩ ∨
      p ∈ (Content.ofNodes (a.nodes free)).preorder start (some (free + a.size)) := by
  simp [node, Content.ofNodes, Content.preorder, root]

/-- Fragments that are the same but for one node of the given kind, which has `u` below it in the
first and `v` in the second; `k` identities are given out before those of `u`. -/
inductive Swaps (kind : Kind) (u v : Fragment) : Nat → Fragment → Fragment → Prop
  | here : Swaps kind u v 0 (u.node kind) (v.node kind)
  | after {k : Nat} {x y : Fragment} (a : Fragment) (ha : a.Steady) (h : Swaps kind u v k x y) :
      Swaps kind u v (a.size + k) (a.append x) (a.append y)
  | before {k : Nat} {x y : Fragment} (b : Fragment) (hb : b.Steady) (h : Swaps kind u v k x y) :
      Swaps kind u v k (x.append b) (y.append b)
  | inside {k : Nat} {x y : Fragment} (outer : Kind) (h : Swaps kind u v k x y) :
      Swaps kind u v k (x.node outer) (y.node outer)

namespace Swaps

/-- The node that is swapped is there. -/
theorem mem_ids (h : Swaps kind u v k x y) (free : NodeId) :
    free + k + u.size ∈ (x.nodes free).flatMap Node.ids := by
  induction h generalizing free with
  | here => simp [node, root, Node.ids]
  | after a ha h ih =>
    have mem := ih (free + a.size)
    rw [append, List.flatMap_append]
    exact List.mem_append_right _ (by rwa [← Nat.add_assoc])
  | before b hb h ih =>
    rw [append, List.flatMap_append]
    exact List.mem_append_left _ (ih free)
  | inside outer h ih =>
    have mem := ih free
    rw [← Content.ids_ofNodes] at mem
    simp [node, root, Node.ids, mem]

/-- **A swapped node is a node with another content**, up to identities. -/
theorem anon_refit (h : Swaps kind u v k x y) {f : Content → Content} {free : NodeId}
    (hd : ((x.nodes free).flatMap Node.ids).Nodup)
    (same : ∀ free', (f (Content.ofNodes (u.nodes (free + k)))).anon =
      (Content.ofNodes (v.nodes free')).anon) (free' : NodeId) :
    (x.nodes free).map (fun n => (n.refit (Node.only (free + k + u.size) f)).anon) =
      (y.nodes free').map Node.anon := by
  -- the node has an identity of its own, so nothing is changed beside it and around it
  induction h generalizing free free' with
  | here => simpa [node, root, Node.refit, Node.only, Node.anon] using same free'
  | @after k x y a ha h ih =>
    have mem := h.mem_ids (free + a.size)
    rw [append, List.flatMap_append, List.nodup_append] at hd
    obtain ⟨-, inner, apart⟩ := hd
    have inside := ih inner (fun free' => by rw [Nat.add_assoc free]; exact same free')
      (free' + a.size)
    rw [Nat.add_assoc free] at mem inside
    rw [append, append, List.map_append, List.map_append, inside,
      Node.anon_refit_only fun hid => apart _ hid _ mem rfl, ha free free']
  | @before k x y b hb h ih =>
    have mem := h.mem_ids free
    rw [append, List.flatMap_append, List.nodup_append] at hd
    obtain ⟨inner, -, apart⟩ := hd
    rw [append, append, List.map_append, List.map_append, ih inner same free',
      Node.anon_refit_only fun hid => apart _ mem _ hid rfl,
      hb (free + x.size) (free' + y.size)]
  | @inside k x y outer h ih =>
    have mem := h.mem_ids free
    simp only [node, root, List.flatMap_cons, List.flatMap_nil, List.append_nil, Node.ids,
      List.nodup_cons, Content.ids_ofNodes] at hd
    have ne : free + x.size ≠ free + k + u.size := fun e => hd.1 (e ▸ mem)
    have below := ih hd.2 same free'
    simp only [node, root, List.map_cons, List.map_nil, Node.refit, Node.only, if_neg ne,
      Option.getD_none, Node.anon, Content.refit_ofNodes, Content.anon_ofNodes, List.map_map]
    simp only [Function.comp_def] at below ⊢
    rw [below]

end Swaps

/-- **The fragment with a node swapped** is the fragment with the content of that node changed, up
to identities. -/
theorem Swaps.anon_alter (h : Swaps kind u v k x y) {f : Content → Content} {free : NodeId}
    (hd : (Content.ofNodes (x.nodes free)).ids.Nodup)
    (same : ∀ free', (f (Content.ofNodes (u.nodes (free + k)))).anon =
      (Content.ofNodes (v.nodes free')).anon) (free' : NodeId) :
    ((Content.ofNodes (x.nodes free)).alter (free + k + u.size) f).anon =
      (Content.ofNodes (y.nodes free')).anon := by
  have nodes := h.anon_refit (by rwa [← Content.ids_ofNodes]) same free'
  rw [Content.alter_eq_refit hd, Content.anon_ofNodes, ← nodes]
  change ((Content.ofNodes (x.nodes free)).refit (Node.only (free + k + u.size) f)).anon = _
  rw [Content.refit_ofNodes, Content.anon_ofNodes, List.map_map]
  rfl

end Fragment

end SyntaxLint
