import SyntaxLint.Lint.Inspection
import SyntaxLint.Proofs.Tree.Calls

/-!
# Proofs — Linting — checks of the nodes of one kind

The walk of an inspection checks the nodes of one kind.  It goes on beside such a node, not below
it, and not below tokens; so what is checked are the outermost nodes of the kind, outside of tokens.
A check ends in a diagnostic, in nothing, or at a child that is missing.

* `OneEach`: items that belong to the nodes with a property, one to each and in order.
* `Visitor.Checks`: a visitor that checks the nodes of one kind.
* `Visitor.Checks.walk`, `Visitor.Checks.lists`: what its walk finds.
-/

namespace SyntaxLint

/-! ### Items that belong to nodes -/

/-- The items of a list belong, one to each and in order, to the nodes of a list that have a
property. -/
def OneEach {α : Type} (ns : List Placed) (P : Placed → Prop) (R : Placed → α → Prop)
    (xs : List α) : Prop :=
  ∃ ms, ms.Sublist ns ∧ ms.Nodup ∧ (∀ n, n ∈ ms ↔ n ∈ ns ∧ P n) ∧ List.Forall₂ R ms xs

theorem forall₂_filterMap {α : Type} (f : Placed → Option α) (ns : List Placed) :
    List.Forall₂ (fun n x => f n = some x) (ns.filter (f · |>.isSome)) (ns.filterMap f) := by
  induction ns with
  | nil => exact .nil
  | cons n ns ih =>
    cases found : f n <;> simpa [List.filter_cons, found] using ih

/-- What is made of those nodes of a list that lie below none that stops a walk. -/
theorem oneEach_filterMap_clear {α : Type} {f : Placed → Option α} {P : Placed → Prop}
    {R : Placed → α → Prop} {stops : Kind → Bool} {ns : List Placed} (hd : ns.Nodup)
    (hP : ∀ n, P n ↔ n.Clear stops ns ∧ ∃ x, f n = some x) (hR : ∀ n x, f n = some x → R n x) :
    OneEach ns P R ((Placed.clear stops ns).filterMap f) := by
  refine ⟨(Placed.clear stops ns).filter (f · |>.isSome),
    List.filter_sublist.trans List.filter_sublist, (hd.filter _).filter _, fun n => ?_,
    (forall₂_filterMap f _).imp fun n x => hR n x⟩
  rw [List.mem_filter, Placed.mem_clear, hP, Option.isSome_iff_exists, and_assoc]

/-! ### Walks that check the nodes of one kind -/

/-- What a check of a node adds to what was found before. -/
def Findings.note (r : Reporter) (n : Placed) (f : Findings) :
    Except MissingChild (Option Diagnostic) → Findings
  | .ok (some d) => f.register d
  | .ok .none => f
  | .error cause => f.skip ⟨r.inspection, n.kind, n.span, cause⟩

/-- The kinds of the nodes that are not gone below where nodes of the kind `target` are checked. -/
def Kind.endsAt (target kind : Kind) : Bool := kind.isToken || kind == target

/-- A visitor that checks the nodes of the kind `target` and goes on beside them, and goes on below
all other productions.  What `finding` finds at a node is shown as `shown` tells. -/
structure Visitor.Checks (v : Visitor Findings) (r : Reporter) {target : Kind} {β : Type}
    (finding : View target → Except MissingChild (Option β)) (shown : β → Diagnostic) : Prop where
  composite : target.isToken = false
  enter : ∀ n f, v.enter n f = (f, .go)
  exit : ∀ n f, v.exit n f = (f, .go)
  token : ∀ n f, v.token n f = (f, .go)
  other : ∀ n f, v.other n f = (f, .descend)
  handles : v.handles target.language = true
  beside : ∃ check, v.production target = some check ∧ ∀ b f,
    check b.node f = (f.note r b.node ((finding b).map (Option.map shown)), .skip)
  below : ∀ kind ≠ target, v.production kind = none

section Checking

variable {target : Kind} {β : Type}

/-- The diagnostic that a check of a node ends in. -/
def diagnosed? (finding : View target → Except MissingChild (Option β)) (shown : β → Diagnostic)
    (n : Placed) : Option Diagnostic :=
  (View.of? target n).bind fun b =>
    match finding b with
    | .ok found => found.map shown
    | .error _ => none

/-- What is noted of a node whose check ends at a missing child. -/
def skipped? (r : Reporter) (finding : View target → Except MissingChild (Option β)) (n : Placed) :
    Option Skipped :=
  (View.of? target n).bind fun b =>
    match finding b with
    | .ok _ => none
    | .error cause => some ⟨r.inspection, n.kind, n.span, cause⟩

variable {v : Visitor Findings} {r : Reporter} {n : Placed}
  {finding : View target → Except MissingChild (Option β)} {shown : β → Diagnostic}

theorem View.of?_of_eq (kind : n.kind = target) : View.of? target n = some ⟨n, kind⟩ := by
  simp [View.of?, kind]

theorem View.of?_of_ne (kind : n.kind ≠ target) : View.of? target n = none := by
  simp [View.of?, kind]

namespace Visitor.Checks

theorem callback_of_eq (h : v.Checks r finding shown) (kind : n.kind = target) (f : Findings) :
    v.callback n.kind n f = (f.note r n ((finding ⟨n, kind⟩).map (Option.map shown)), .skip) := by
  obtain ⟨check, produced, checks⟩ := h.beside
  rw [← checks ⟨n, kind⟩, callback, kind, h.handles, produced]
  rfl

theorem callback_of_ne (h : v.Checks r finding shown) (kind : n.kind ≠ target) (f : Findings) :
    v.callback n.kind n f = (f, .descend) := by
  rw [callback, h.below n.kind kind, Option.getD_none, ite_self, h.other]

theorem steady (h : v.Checks r finding shown) : v.Steady target.endsAt where
  enter n f := by rw [h.enter]
  exit n f := by rw [h.exit]
  token n f token := ⟨by simp [Kind.endsAt, token], by rw [h.token]⟩
  production n f composite := by
    by_cases kind : n.kind = target
    · rw [h.callback_of_eq kind]
      simp [Kind.endsAt, kind]
    · rw [h.callback_of_ne kind]
      simp [Kind.endsAt, kind, composite]

/-- What a visitor notes when it is told of a node. -/
theorem told (h : v.Checks r finding shown) (n : Placed) (f : Findings) :
    v.told n f = f.more (diagnosed? finding shown n).toList (skipped? r finding n).toList := by
  rw [Visitor.told, diagnosed?, skipped?]
  by_cases kind : n.kind = target
  · have composite : ¬ n.kind.isToken = true := by simp [kind, h.composite]
    rw [if_neg composite, h.callback_of_eq kind, View.of?_of_eq kind, Option.bind_some,
      Option.bind_some]
    rcases finding ⟨n, kind⟩ with cause | (_ | d) <;>
      simp [Findings.note, Findings.register_eq, Findings.skip_eq, Except.map]
  · have still : (if n.kind.isToken then (v.token n f).1 else (v.callback n.kind n f).1) = f := by
      rw [h.token, h.callback_of_ne kind, ite_self]
    simp [still, View.of?_of_ne kind]

theorem foldl_told (h : v.Checks r finding shown) (ns : List Placed) (f : Findings) :
    ns.foldl (fun f n => v.told n f) f =
      f.more (ns.filterMap (diagnosed? finding shown)) (ns.filterMap (skipped? r finding)) := by
  induction ns generalizing f with
  | nil => simp
  | cons n ns ih =>
    rw [List.foldl_cons, ih, h.told, Findings.more_more, List.filterMap_cons, List.filterMap_cons]
    cases diagnosed? finding shown n <;> cases skipped? r finding n <;> simp

/-- **What a walk finds that checks the nodes of one kind**: what is made of the outermost nodes of
the kind, outside of tokens. -/
theorem walk (h : v.Checks r finding shown) (hd : (n.id :: n.body.ids).Nodup) (f : Findings) :
    (n.walk v f).1 =
      f.more ((Placed.clear target.endsAt n.preorder).filterMap (diagnosed? finding shown))
        ((Placed.clear target.endsAt n.preorder).filterMap (skipped? r finding)) := by
  rw [h.steady.walk, foldl_call_of_quiet (n.nested_calls target.endsAt) (fun n f => by rw [h.enter])
    (fun n f => by rw [h.exit]), h.foldl_told, Placed.entered_calls _ hd]

end Visitor.Checks

end Checking

/-- A node of a kind that lies below no other node of the kind and below no token, as far as nodes
of `r` and below it go. -/
def Placed.Outermost (r : Placed) (target : Kind) (n : Placed) : Prop :=
  n.kind = target ∧ ∀ m ∈ r.preorder, m.kind.isToken = true ∨ m.kind = target → n ∉ m.descendants

theorem Placed.outermost_iff {r n : Placed} {target : Kind} :
    r.Outermost target n ↔ n.Clear target.endsAt r.preorder ∧ n.kind = target := by
  rw [and_comm]
  simp [Outermost, Clear, Kind.endsAt]

/-- What an inspection finds below `r` that checks the nodes of the kind `target`: the diagnostics
that are due at the outermost of these nodes, and those of them without the child `expected`.  Both
are counted. -/
structure Findings.Lists (f : Findings) (inspection : String) (r : Placed) (target expected : Kind)
    (due : Placed → Diagnostic → Prop) : Prop where
  diagnostics : OneEach r.preorder (fun n => r.Outermost target n ∧ ∃ d, due n d) due f.diagnostics
  skipped : OneEach r.preorder (fun n => r.Outermost target n ∧ n.child? expected = .none)
    (fun n s => s = ⟨inspection, target, n.span, target, n.span, expected⟩) f.skipped
  reported : f.reported = f.diagnostics.length
  malformed : f.malformed = f.skipped.length

section Listing

variable {target expected : Kind} {β : Type} {v : Visitor Findings} {r : Reporter} {n : Placed}
  {finding : View target → Except MissingChild (Option β)} {shown : β → Diagnostic}
  {due : Placed → Diagnostic → Prop}

theorem diagnosed?_eq_some_iff
    (found : ∀ b d, (∃ x, finding b = .ok (some x) ∧ shown x = d) ↔ due b.node d) {d : Diagnostic} :
    diagnosed? finding shown n = some d ↔ n.kind = target ∧ due n d := by
  by_cases kind : n.kind = target
  · rw [diagnosed?, View.of?_of_eq kind, Option.bind_some, ← found ⟨n, kind⟩]
    rcases finding ⟨n, kind⟩ with cause | found <;> simp [kind]
  · simp [diagnosed?, View.of?_of_ne kind, kind]

theorem skipped?_eq_some_iff
    (missing : ∀ b cause, finding b = .error cause ↔ b.node.child? expected = none ∧
      cause = ⟨b.node.kind, b.node.span, expected⟩) {s : Skipped} :
    skipped? r finding n = some s ↔ n.kind = target ∧ n.child? expected = none ∧
      s = ⟨r.inspection, target, n.span, target, n.span, expected⟩ := by
  by_cases kind : n.kind = target
  · have missing := missing ⟨n, kind⟩
    rw [skipped?, View.of?_of_eq kind, Option.bind_some]
    cases ended : finding ⟨n, kind⟩ with
    | ok found =>
      have here : n.child? expected ≠ none := fun none => by
        simpa [ended] using (missing _).2 ⟨none, rfl⟩
      simp [here]
    | error cause =>
      obtain ⟨none, rfl⟩ := (missing cause).1 ended
      simp [kind, none, eq_comm]
  · simp [skipped?, View.of?_of_ne kind, kind]

/-- What is due is found and what is missing is noted. -/
theorem Visitor.Checks.lists (h : v.Checks r finding shown) (hd : (n.id :: n.body.ids).Nodup)
    (found : ∀ b d, (∃ x, finding b = .ok (some x) ∧ shown x = d) ↔ due b.node d)
    (missing : ∀ b cause, finding b = .error cause ↔ b.node.child? expected = none ∧
      cause = ⟨b.node.kind, b.node.span, expected⟩) :
    (n.walk v .none).1.Lists r.inspection n target expected due := by
  rw [h.walk hd]
  constructor
  case diagnostics =>
    rw [Findings.more, Findings.none, List.nil_append]
    refine oneEach_filterMap_clear (Placed.nodup_preorder hd) (fun m => ?_)
      fun m d e => ((diagnosed?_eq_some_iff found).1 e).2
    simp only [diagnosed?_eq_some_iff found, Placed.outermost_iff, exists_and_left, and_assoc]
  case skipped =>
    rw [Findings.more, Findings.none, List.nil_append]
    refine oneEach_filterMap_clear (Placed.nodup_preorder hd) (fun m => ?_)
      fun m s e => ((skipped?_eq_some_iff missing).1 e).2.2
    simp only [skipped?_eq_some_iff missing, Placed.outermost_iff, exists_and_left, exists_eq,
      and_true, and_assoc]
  case reported => simp [Findings.more, Findings.none]
  case malformed => simp [Findings.more, Findings.none]

end Listing

end SyntaxLint
