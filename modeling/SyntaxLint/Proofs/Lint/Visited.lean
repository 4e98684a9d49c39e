import SyntaxLint.Lint.Inspector
import SyntaxLint.Proofs.Fixing.Reachable
import SyntaxLint.Proofs.Tree.Calls

/-!
# Proofs — Linting — the nodes a walk enters

A visitor is *plain* when what it is told of a node makes no difference to its walk: it goes on
beside tokens and below everything else.  Whatever else such a visitor does, its walk enters the
same nodes.  A token is told by its kind alone, and nothing is entered below one.  Trees can be
built in which a node of a token kind has children, and there a walk enters fewer nodes than a pass
counts as visited.

* `Placed.Walks`: the calls of the walk of every plain visitor.
* `Placed.Swept`: every node is entered and left.
* `Tree.swept_iff_of_reachable`: a node is swept just if all tokens below it are leaves, and then
  just as many nodes are entered as are counted.
-/

namespace SyntaxLint

/-- A visitor without callbacks of its own for what a node is.  What it does when it enters or
leaves a node does not end the walk. -/
structure Visitor.Plain {σ : Type} (v : Visitor σ) : Prop where
  enter : ∀ n s, (v.enter n s).2 = .go
  exit : ∀ n s, (v.exit n s).2 = .go
  token : ∀ n s, v.token n s = (s, .go)
  other : ∀ n s, v.other n s = (s, .descend)
  production : ∀ kind, v.production kind = none

theorem Visitor.Plain.steady {σ : Type} {v : Visitor σ} (h : v.Plain) : v.Steady Kind.isToken where
  enter := h.enter
  exit := h.exit
  token n s token := ⟨token, by rw [h.token]⟩
  production n s composite := by
    have called : v.callback n.kind = v.other := by simp [callback, h.production]
    simp [called, h.other, composite]

/-- The visitor that notes the nodes it enters. -/
def Visitor.recorder : Visitor (List Placed) :=
  { Visitor.silent with enter n ns := (ns ++ [n], .go) }

theorem Visitor.recorder_plain : recorder.Plain where
  enter _ _ := rfl
  exit _ _ := rfl
  token _ _ := rfl
  other _ _ := rfl
  production _ := rfl

theorem Visitor.foldl_recorder (cs : List Call) (ns : List Placed) :
    cs.foldl recorder.call ns = ns ++ Call.entered cs := by
  induction cs generalizing ns with
  | nil => simp
  | cons c cs ih =>
    rw [List.foldl_cons, ih]
    cases c with
    | enter n => simp [call, recorder, Call.entered]
    | tell n =>
      have still : recorder.call ns (.tell n) = ns := by
        simp [call, told, callback, recorder, silent]
      rw [still]
      rfl
    | exit n => rfl

namespace Placed

variable {n r : Placed} {stops : Kind → Bool}

/-- What the walk of every plain visitor over a node does. -/
structure Walks (r : Placed) (cs : List Call) : Prop where
  runs : ∀ (σ : Type) (v : Visitor σ), v.Plain → ∀ s, r.walk v s = (cs.foldl v.call s, .go)
  /-- below a token there are no calls -/
  nested : Call.Nested (childrenUnless Kind.isToken) [r] cs
  entered : Call.entered cs = clear Kind.isToken r.preorder
  once : (Call.entered cs).Nodup
  left : (Call.left cs).Perm (Call.entered cs)

/-- The walk of every plain visitor over a node enters it and all nodes below it in pre-order, each
once, and leaves each once after its children. -/
def Swept (r : Placed) : Prop :=
  ∃ cs, (∀ (σ : Type) (v : Visitor σ), v.Plain → ∀ s, r.walk v s = (cs.foldl v.call s, .go)) ∧
    Call.Nested children [r] cs ∧ Call.entered cs = r.preorder ∧ (Call.left cs).Perm r.preorder

/-- All nodes of token kinds, of a node and those below it, are leaves. -/
def TokensBare (r : Placed) : Prop := ∀ n ∈ r.preorder, n.kind.isToken = true → n.isLeaf = true

/-- Nothing is left out just if the nodes of the kinds that stop a walk are leaves. -/
theorem clear_eq_preorder_iff :
    clear stops r.preorder = r.preorder ↔
      ∀ n ∈ r.preorder, stops n.kind = true → n.isLeaf = true := by
  rw [clear, List.filter_eq_self]
  constructor
  · intro clear n hn stop
    rw [← descendants_eq_nil_iff, List.eq_nil_iff_forall_not_mem]
    intro m hm
    have listed : m ∈ r.preorder := by
      rw [← r.preorder_alone] at hn ⊢
      exact Content.mem_preorder_of_mem_descendants hn hm
    exact of_decide_eq_true (clear m listed) n hn stop hm
  · intro leaves m _
    refine decide_eq_true fun n hn stop below => ?_
    rw [descendants_eq_nil_iff.2 (leaves n hn stop)] at below
    simp at below

/-- The calls of a walk where identities are distinct. -/
theorem walks_calls (hd : (r.id :: r.body.ids).Nodup) : r.Walks (r.calls Kind.isToken) where
  runs _ _ plain s := plain.steady.walk r s
  nested := r.nested_calls Kind.isToken
  entered := entered_calls Kind.isToken hd
  once := by
    rw [entered_calls Kind.isToken hd]
    exact (nodup_preorder hd).filter _
  left := (r.nested_calls Kind.isToken).left_perm

/-- A node is swept just if tokens are leaves. -/
theorem Walks.swept_iff {cs : List Call} (h : r.Walks cs) : r.Swept ↔ r.TokensBare := by
  constructor
  · rintro ⟨ds, runs, -, all, -⟩
    have same : Call.entered cs = Call.entered ds := by
      have walk := h.runs _ _ Visitor.recorder_plain []
      rw [runs _ _ Visitor.recorder_plain, Visitor.foldl_recorder, Visitor.foldl_recorder] at walk
      simpa using congrArg Prod.fst walk.symm
    exact clear_eq_preorder_iff.1 (h.entered.symm.trans (same.trans all))
  · intro bare
    have all : Call.entered cs = r.preorder := h.entered.trans (clear_eq_preorder_iff.2 bare)
    refine ⟨cs, h.runs, h.nested.congr fun n hn => ?_, all, all ▸ h.left⟩
    rw [childrenUnless]
    split
    · rename_i token
      exact (children_eq_nil_iff.2 (bare n (all ▸ hn) token)).symm
    · rfl

end Placed

/-! ### Passes -/

namespace Tree

variable {t : Tree} {r : Placed}

/-- **The nodes that a walk enters.**  The walk of a plain visitor enters the nodes that lie below
no token, each once and in pre-order, and leaves each once; it enters as many as a pass counts just
if every token is a leaf. -/
theorem swept_iff_of_reachable (h : t.Reachable) (hr : r ∈ t.nodes) :
    ∃ cs, r.Walks cs ∧ (r.Swept ↔ r.TokensBare) ∧
      ∀ i : Inspector, (i.summary t r).visited = (Call.entered cs).length ↔ r.TokensBare := by
  have walks := Placed.walks_calls (Content.nodup_of_mem h.numbered.nodup hr)
  refine ⟨_, walks, walks.swept_iff, fun i => ?_⟩
  rw [Placed.TokensBare, ← Placed.clear_eq_preorder_iff, walks.entered, Placed.clear]
  exact eq_comm.trans List.length_filter_eq_length_iff |>.trans List.filter_eq_self.symm

/-- A document of two texts, each of which is a leaf. -/
theorem swept_iff_of_texts : ∃ t : Tree,
    Tree.ofEvents 0 [.start .document, .token .text "a", .token .text "bc", .finish] = .ok t ∧
    ∃ cs, t.top.Walks cs ∧ (t.top.Swept ↔ t.top.TokensBare) ∧
      ∀ i : Inspector, (i.summary t t.top).visited = (Call.entered cs).length ↔
        t.top.TokensBare := by
  have built : Tree.ofEvents 0 [.start .document, .token .text "a", .token .text "bc", .finish] =
      .ok ⟨0, "", ⟨2, .document, .node "" 0 .text (.tail "a") (.node "" 1 .text (.tail "bc")
        (.tail ""))⟩, ""⟩ := rfl
  exact ⟨_, built, swept_iff_of_reachable (.built built) top_mem_nodes⟩

/-- A text in an error, in a document: nothing is entered below the error. -/
theorem not_swept_of_wrapped : ∃ t : Tree,
    Tree.ofOutline 0 "a" ⟨.document, ⟨0, 1⟩, .node .error ⟨0, 1⟩ (.node .text ⟨0, 1⟩ .done .done)
      .done⟩ = .ok t ∧ t.top.preorder.map (·.kind) = [.document, .error, .text] ∧
    (∀ i : Inspector, (i.summary t t.top).visited = 3) ∧
    (t.top.walk Visitor.recorder []).1.map (·.kind) = [.document, .error] ∧ ¬ t.top.Swept := by
  have stored : Tree.ofOutline 0 "a" ⟨.document, ⟨0, 1⟩,
      .node .error ⟨0, 1⟩ (.node .text ⟨0, 1⟩ .done .done) .done⟩ =
      .ok ⟨0, "", ⟨2, .document, .node "" 1 .error (.node "" 0 .text (.tail "a") (.tail ""))
        (.tail "")⟩, ""⟩ := rfl
  refine ⟨_, stored, rfl, fun _ => rfl, rfl, ?_⟩
  rintro ⟨cs, runs, -, all, -⟩
  have walk := runs _ _ Visitor.recorder_plain []
  rw [Visitor.foldl_recorder, all] at walk
  exact absurd (congrArg (fun p => p.1.length) walk) (by decide)

end Tree

end SyntaxLint
