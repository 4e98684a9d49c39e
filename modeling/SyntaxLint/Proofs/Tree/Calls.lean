import SyntaxLint.Proofs.Tree.Spliced
import SyntaxLint.Tree.Walk

/-!
# Proofs — Trees — the calls of a walk

A visitor is *steady* when no callback of it ends the walk and when the kind of a node says whether
the walk goes on below the node.  The walk of a steady visitor is then a list of calls that does
not depend on the state: every node is entered, told of and left, and the calls below it stand
between the last two.

Which nodes are entered is read off the tree.  They are the nodes that lie below no node of a kind
that stops the walk, each once and in pre-order.

* `Visitor.Steady.visit`, `Visitor.Steady.walk`: what happens at a node, and what a walk does.
* `Call.Nested`: calls that are properly nested.
* `Placed.entered_calls`: the nodes entered.
-/

namespace SyntaxLint

/-- A call of a visitor at a node: it enters the node, is told what the node is, or leaves it. -/
inductive Call where
  | enter (n : Placed)
  | tell (n : Placed)
  | exit (n : Placed)
  deriving DecidableEq, Repr

namespace Visitor

variable {σ : Type}

/-- What a visitor does when it is told of a node. -/
def told (v : Visitor σ) (n : Placed) (s : σ) : σ :=
  if n.kind.isToken then (v.token n s).1 else (v.callback n.kind n s).1

/-- What a visitor does at a call. -/
def call (v : Visitor σ) (s : σ) : Call → σ
  | .enter n => (v.enter n s).1
  | .tell n => v.told n s
  | .exit n => (v.exit n s).1

/-- No callback ends the walk, which goes on below all nodes but those of the kinds `stops`. -/
structure Steady (v : Visitor σ) (stops : Kind → Bool) : Prop where
  enter : ∀ n s, (v.enter n s).2 = .go
  exit : ∀ n s, (v.exit n s).2 = .go
  token : ∀ n s, n.kind.isToken = true → stops n.kind = true ∧ (v.token n s).2 = .go
  production : ∀ n s, n.kind.isToken = false →
    (v.callback n.kind n s).2 = if stops n.kind then .skip else .descend

end Visitor

/-! ### The calls of a walk -/

/-- The calls at a node, with those below it. -/
def Call.around (n : Placed) (below : List Call) : List Call :=
  .enter n :: .tell n :: below ++ [.exit n]

/-- The calls of a walk over a run that begins at `start` below `parent` and that does not go below
nodes of the kinds `stops`. -/
def Content.calls (stops : Kind → Bool) (start : Nat) (parent : Option NodeId) :
    Content → List Call
  | .tail _ => []
  | .node gap id kind body next =>
    let here : Placed := ⟨⟨id, kind, body⟩, start + gap.utf8ByteSize, parent⟩
    Call.around here (if stops kind then [] else body.calls stops here.start (some id)) ++
      next.calls stops here.span.stop parent

/-- The calls of a walk over a node and all below it that does not go below nodes of the kinds
`stops`. -/
def Placed.calls (stops : Kind → Bool) (n : Placed) : List Call :=
  Call.around n (if stops n.kind then [] else n.body.calls stops n.start (some n.id))

namespace Visitor

variable {σ : Type} {v : Visitor σ} {stops : Kind → Bool}

/-- What happens at a node, given the calls below it. -/
theorem Steady.visit (h : v.Steady stops) (n : Placed) {below : σ → σ × Flow}
    {inner : List Call} (walks : ∀ s, below s = (inner.foldl v.call s, .go)) (s : σ) :
    v.visit n below s =
      ((Call.around n (if stops n.kind then [] else inner)).foldl v.call s, .go) := by
  have entered : v.enter n s = (v.call s (.enter n), .go) := Prod.ext rfl (h.enter n s)
  have left : ∀ s, v.exit n s = (v.call s (.exit n), .go) := fun s => Prod.ext rfl (h.exit n s)
  have told : ∀ s, v.dispatch n below s =
      ((if stops n.kind then [] else inner).foldl v.call (v.told n s), .go) := by
    intro s
    rw [dispatch, Visitor.told]
    cases token : n.kind.isToken with
    | true =>
      obtain ⟨stop, go⟩ := h.token n s token
      simp only [if_true, stop, List.foldl_nil]
      exact Prod.ext rfl go
    | false =>
      have turn := h.production n s token
      cases stop : stops n.kind with
      | true =>
        have called : v.callback n.kind n s = ((v.callback n.kind n s).1, .skip) :=
          Prod.ext rfl (by simpa [stop] using turn)
        rw [called]
        rfl
      | false =>
        have called : v.callback n.kind n s = ((v.callback n.kind n s).1, .descend) :=
          Prod.ext rfl (by simpa [stop] using turn)
        rw [called]
        exact walks _
  rw [Visitor.visit, entered]
  simp only [told, left, Call.around, List.cons_append, List.foldl_cons, List.foldl_append,
    List.foldl_nil]
  rfl

/-- **The walk of a run is its calls**, one after the other. -/
theorem Steady.walk_content (h : v.Steady stops) (c : Content) (start : Nat)
    (parent : Option NodeId) (s : σ) :
    c.walk v start parent s = ((c.calls stops start parent).foldl v.call s, .go) := by
  induction c generalizing start parent s with
  | tail t => rfl
  | node gap id kind body next ihb ihn =>
    have here := h.visit ⟨⟨id, kind, body⟩, start + gap.utf8ByteSize, parent⟩
      (ihb (start + gap.utf8ByteSize) (some id)) s
    rw [Content.walk, here]
    simp only [ihn, Content.calls, List.foldl_append]

/-- **The walk of a node is its calls**, one after the other. -/
theorem Steady.walk (h : v.Steady stops) (n : Placed) (s : σ) :
    n.walk v s = ((n.calls stops).foldl v.call s, .go) :=
  h.visit n (h.walk_content n.body n.start (some n.id)) s

end Visitor

/-! ### Nesting -/

namespace Call

/-- The calls of a walk over some nodes: each is entered, told of and left before the next is
entered, and the calls over the nodes below it come before it is left. -/
inductive Nested (below : Placed → List Placed) : List Placed → List Call → Prop where
  | nil : Nested below [] []
  | cons {n : Placed} {ns : List Placed} {inner rest : List Call}
      (children : Nested below (below n) inner) (more : Nested below ns rest) :
      Nested below (n :: ns) (around n inner ++ rest)

/-- The nodes entered, in order. -/
def entered (cs : List Call) : List Placed :=
  cs.filterMap fun
    | .enter n => some n
    | _ => none

/-- The nodes told of, in order. -/
def told (cs : List Call) : List Placed :=
  cs.filterMap fun
    | .tell n => some n
    | _ => none

/-- The nodes left, in order. -/
def left (cs : List Call) : List Placed :=
  cs.filterMap fun
    | .exit n => some n
    | _ => none

variable {below below' : Placed → List Placed} {ns : List Placed} {cs : List Call}

@[simp] theorem entered_nil : entered [] = [] := rfl

@[simp] theorem entered_append (cs ds : List Call) :
    entered (cs ++ ds) = entered cs ++ entered ds :=
  List.filterMap_append

@[simp] theorem entered_around (n : Placed) (inner : List Call) :
    entered (around n inner) = n :: entered inner := by
  simp [entered, around]

@[simp] theorem left_around (n : Placed) (inner : List Call) :
    left (around n inner) = left inner ++ [n] := by
  simp [left, around]

/-- What is entered is left. -/
theorem Nested.left_perm (h : Nested below ns cs) : (left cs).Perm (entered cs) := by
  induction h with
  | nil => exact .nil
  | @cons n ns inner rest _ _ ihc ihm =>
    have split : left (around n inner ++ rest) = left inner ++ [n] ++ left rest := by
      rw [← left_around]
      exact List.filterMap_append
    rw [split, entered_append, entered_around]
    exact ((List.perm_append_singleton n _).trans (ihc.cons n)).append ihm

/-- What is entered is told of. -/
theorem Nested.told_eq (h : Nested below ns cs) : told cs = entered cs := by
  induction h with
  | nil => rfl
  | @cons n ns inner rest _ _ ihc ihm =>
    have split : told (around n inner ++ rest) = n :: told inner ++ told rest := by
      simp [told, around]
    rw [split, ihc, ihm, entered_append, entered_around]

/-- Calls are nested in the same way if the nodes below those entered are the same. -/
theorem Nested.congr (h : Nested below ns cs) (same : ∀ n ∈ entered cs, below n = below' n) :
    Nested below' ns cs := by
  induction h with
  | nil => exact .nil
  | @cons n ns inner rest _ _ ihc ihm =>
    simp only [entered_append, entered_around, List.cons_append, List.mem_cons,
      List.mem_append] at same
    have inside := ihc fun m hm => same m (.inr (.inl hm))
    rw [same n (.inl rfl)] at inside
    exact .cons inside (ihm fun m hm => same m (.inr (.inr hm)))

end Call

/-- The children of a node below which a walk goes on. -/
def Placed.childrenUnless (stops : Kind → Bool) (n : Placed) : List Placed :=
  if stops n.kind then [] else n.children

theorem Content.nested_calls (stops : Kind → Bool) (c : Content) (start : Nat)
    (parent : Option NodeId) :
    Call.Nested (Placed.childrenUnless stops) (c.siblings start parent)
      (c.calls stops start parent) := by
  induction c generalizing start parent with
  | tail s => exact .nil
  | node gap id kind body next ihb ihn =>
    refine .cons ?_ (ihn _ _)
    cases stop : stops kind with
    | true => simpa [Placed.childrenUnless, stop] using .nil
    | false => simpa [Placed.childrenUnless, Placed.children, stop] using ihb _ _

/-- The calls of a walk are properly nested. -/
theorem Placed.nested_calls (stops : Kind → Bool) (n : Placed) :
    Call.Nested (childrenUnless stops) [n] (n.calls stops) := by
  have nested : Call.Nested (childrenUnless stops) (n.childrenUnless stops)
      (if stops n.kind then [] else n.body.calls stops n.start (some n.id)) := by
    cases stop : stops n.kind with
    | true => simpa [childrenUnless, stop] using .nil
    | false => simpa [childrenUnless, children, stop] using n.body.nested_calls stops _ _
  simpa [calls] using Call.Nested.cons nested .nil

/-- A visitor that does nothing when it enters and leaves nodes does, at nested calls, what it does
when it is told of the nodes entered. -/
theorem Visitor.foldl_call_of_quiet {σ : Type} {v : Visitor σ} {below : Placed → List Placed}
    {ns : List Placed} {cs : List Call} (nested : Call.Nested below ns cs)
    (enter : ∀ n s, (v.enter n s).1 = s) (exit : ∀ n s, (v.exit n s).1 = s) (s : σ) :
    cs.foldl v.call s = (Call.entered cs).foldl (fun s n => v.told n s) s := by
  rw [← nested.told_eq]
  clear nested
  induction cs generalizing s with
  | nil => rfl
  | cons c cs ih =>
    rw [List.foldl_cons, ih]
    cases c with
    | enter n =>
      rw [call, enter]
      rfl
    | tell n => rfl
    | exit n =>
      rw [call, exit]
      rfl

/-! ### The nodes entered -/

namespace Placed

variable {stops : Kind → Bool} {ns ms : List Placed} {n : Placed}

/-- A node lies below none of the given nodes that are of the kinds `stops`. -/
def Clear (stops : Kind → Bool) (ns : List Placed) (n : Placed) : Prop :=
  ∀ m ∈ ns, stops m.kind = true → n ∉ m.descendants

instance (stops : Kind → Bool) (ns : List Placed) (n : Placed) : Decidable (n.Clear stops ns) :=
  inferInstanceAs (Decidable (∀ m ∈ ns, stops m.kind = true → n ∉ m.descendants))

/-- Those of the given nodes that lie below none of them that is of the kinds `stops`. -/
def clear (stops : Kind → Bool) (ns : List Placed) : List Placed := ns.filter (Clear stops ns)

theorem mem_clear : n ∈ clear stops ns ↔ n ∈ ns ∧ n.Clear stops ns := by simp [clear]

/-- Of some nodes only those above a node matter to it. -/
theorem clear_congr (sub : ms ⊆ ns)
    (above : ∀ m ∈ ns, stops m.kind = true → n ∈ m.descendants → m ∈ ms) :
    n.Clear stops ns ↔ n.Clear stops ms :=
  ⟨fun h m hm => h m (sub hm), fun h m hm stop below => h m (above m hm stop below) stop below⟩

/-- Some nodes of a list, if they stay the same when fewer of its nodes are above them. -/
theorem filter_clear (same : ∀ n ∈ ms, n.Clear stops ns ↔ n.Clear stops ms) :
    ms.filter (Clear stops ns) = clear stops ms :=
  List.filter_congr fun n hn => decide_eq_decide.2 (same n hn)

/-- Nodes none of which lies below one of others do not matter to these. -/
theorem clear_append (apart : ∀ n ∈ ns, n ∉ ms) (hns : ∀ m ∈ ns, m.descendants ⊆ ns)
    (hms : ∀ m ∈ ms, m.descendants ⊆ ms) :
    clear stops (ns ++ ms) = clear stops ns ++ clear stops ms := by
  rw [clear, List.filter_append]
  congr 1
  · refine filter_clear fun n hn =>
      clear_congr (List.subset_append_left ns ms) fun m hm _ below => ?_
    rcases List.mem_append.1 hm with hm | hm
    · exact hm
    · exact absurd (hms m hm below) (apart n hn)
  · refine filter_clear fun n hn =>
      clear_congr (List.subset_append_right ns ms) fun m hm _ below => ?_
    rcases List.mem_append.1 hm with hm | hm
    · exact absurd hn (apart n (hns m hm below))
    · exact hm

/-- A node stands before all that lies below it, which it keeps from being clear if it is of the
kinds `stops`. -/
theorem clear_preorder (out : n ∉ n.descendants) (down : ∀ m ∈ n.descendants, n ∉ m.descendants) :
    clear stops n.preorder =
      n :: if stops n.kind then [] else clear stops n.descendants := by
  have first : n.Clear stops n.preorder := by
    rintro m hm - below
    rcases List.mem_cons.1 hm with rfl | hm
    · exact out below
    · exact down m hm below
  have cons : clear stops n.preorder = n :: n.descendants.filter (Clear stops n.preorder) :=
    List.filter_cons_of_pos (by simpa using first)
  rw [cons]
  congr 1
  cases stop : stops n.kind with
  | true =>
    refine List.filter_eq_nil_iff.2 fun m hm clear => ?_
    exact of_decide_eq_true clear n List.mem_cons_self stop hm
  | false =>
    refine filter_clear fun k _ => clear_congr (List.subset_cons_self n _) fun m hm go _ => ?_
    rcases List.mem_cons.1 hm with rfl | hm
    · simp [stop] at go
    · exact hm

end Placed

/-- **A walk of a run enters the nodes that lie below no node at which it stops.** -/
theorem Content.entered_calls {stops : Kind → Bool} {c : Content} {start : Nat}
    {parent : Option NodeId} (hd : c.ids.Nodup) :
    Call.entered (c.calls stops start parent) = Placed.clear stops (c.preorder start parent) := by
  induction c generalizing start parent with
  | tail s => rfl
  | node gap id kind body next ihb ihn =>
    obtain ⟨idb, idn, hb, hx, apart⟩ := nodup_node hd
    let here : Placed := ⟨⟨id, kind, body⟩, start + gap.utf8ByteSize, parent⟩
    let later := next.preorder here.span.stop parent
    have down : ∀ m ∈ here.descendants, m.descendants ⊆ here.descendants := fun m hm k =>
      mem_preorder_of_mem_descendants hm
    -- no identity is given to two nodes, so none lies below itself or in both runs
    have first : Placed.clear stops here.preorder =
        here :: if stops kind then [] else Placed.clear stops here.descendants :=
      Placed.clear_preorder (fun below => idb (id_mem_ids below)) fun m hm below =>
        idb (id_mem_ids (down m hm below))
    have both : Placed.clear stops (here.preorder ++ later) =
        Placed.clear stops here.preorder ++ Placed.clear stops later := by
      refine Placed.clear_append (fun n hn after => ?_) (fun m hm k below => ?_)
        fun m hm k => mem_preorder_of_mem_descendants hm
      · rcases List.mem_cons.1 hn with rfl | hn
        · exact idn (id_mem_ids after)
        · exact apart _ (id_mem_ids hn) (id_mem_ids after)
      · rcases List.mem_cons.1 hm with rfl | hm
        · exact List.mem_cons_of_mem _ below
        · exact List.mem_cons_of_mem _ (down m hm below)
    have nodes : (node gap id kind body next).preorder start parent =
        here.preorder ++ later := rfl
    rw [nodes, both, first, calls, Call.entered_append, Call.entered_around, ihn hx]
    cases stops kind with
    | true => rfl
    | false =>
      rw [if_neg Bool.false_ne_true, if_neg Bool.false_ne_true, ihb hb]
      rfl

/-- **A walk of a node enters the nodes that lie below no node at which it stops**, each once and in
pre-order. -/
theorem Placed.entered_calls (stops : Kind → Bool) {n : Placed} (hd : (n.id :: n.body.ids).Nodup) :
    Call.entered (n.calls stops) = clear stops n.preorder := by
  have alone : n.alone.calls stops n.start n.parent = n.calls stops := by
    simp [Placed.alone, Content.calls, calls]
  rw [← alone, Content.entered_calls (by simpa using hd), n.preorder_alone]

end SyntaxLint
