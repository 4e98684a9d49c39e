import SyntaxLint.Proofs.Fixing.Endings
import SyntaxLint.Proofs.Fixing.Outcome
import SyntaxLint.Proofs.Lint.Reports

/-!
# Proofs — Fixing — what is left to fix

Rounds converge when one applies nothing, or when all that are allowed were made and nothing is
left to fix.  A round without a formatter that applies nothing leaves the tree as it is, and the
first fix of every diagnostic was refused.  A rename is refused for two reasons only.  The name may
have children: in stored trees it may be a composite node, and its text cannot be replaced.  Or the
brackets may make the source too long for offsets.

* `Placed.Unfit`, `Diagnostic.Blocked`: a name that cannot be given brackets, and a diagnostic about
  its binding.
* `AnimationTrigger.Due.blocked`: what is due at a binding is blocked or can be fixed.
* `Rounds.blocked_of_converged`: what is left when rounds converge.
-/

namespace SyntaxLint

variable {t : Tree} {d : Diagnostic} {ds : List Diagnostic} {b : Placed} {severity : Severity}

/-! ### Fixes that are not applied -/

/-- Without a formatter a fix that is not applied leaves the tree as it is. -/
theorem Fix.tree_apply_idle (h : t.Numbered) {fix : Fix} {anchor : Anchor}
    (not : Rounds.isApplied (fix.apply .idle t anchor).outcome = false) :
    (fix.apply .idle t anchor).tree = t := by
  rcases Fix.does h fix anchor with ⟨quiet, done⟩ | ⟨resolved, makes, found, kin, done⟩ |
    ⟨resolved, found, alive, done⟩
  case nothing => rw [done]
  case edit =>
    rw [done] at not
    simp [Rounds.isApplied] at not
  case refused =>
    rw [done]
    rfl

namespace Rounds

/-- Where no first fix is applied, each was tried on the tree as it is. -/
theorem tried_of_quiet (h : t.Numbered)
    (quiet : ∀ o ∈ outcomes .idle t ds, isApplied o = false) :
    ds.foldl (tried .idle) t = t ∧ ∀ d ∈ ds, ∀ fix more, d.fixes = fix :: more →
      isApplied (fix.apply .idle t d.anchor).outcome = false := by
  induction ds with
  | nil => exact ⟨rfl, nofun⟩
  | cons d ds ih =>
    cases fixes : d.fixes with
    | nil =>
      simp only [outcomes, fixes] at quiet
      obtain ⟨same, rest⟩ := ih quiet
      refine ⟨by simpa [tried, fixes] using same, fun d' mem fix more e => ?_⟩
      rcases List.mem_cons.1 mem with rfl | mem
      · simp [fixes] at e
      · exact rest d' mem fix more e
    | cons fix more =>
      simp only [outcomes, fixes, List.forall_mem_cons] at quiet
      obtain ⟨first, others⟩ := quiet
      have still := Fix.tree_apply_idle h first
      rw [still] at others
      obtain ⟨same, rest⟩ := ih others
      refine ⟨by simpa [tried, fixes, still] using same, fun d' mem fix' more' e => ?_⟩
      rcases List.mem_cons.1 mem with rfl | mem
      · obtain ⟨rfl, -⟩ := List.cons.inj (fixes.symm.trans e)
        exact first
      · exact rest d' mem fix' more' e

theorem reachable_tried {format : Formatter} (hf : format.EditsOnly) (h : t.Reachable)
    (d : Diagnostic) : (tried format t d).Reachable := by
  unfold tried
  split
  · exact h
  · exact .fix h _ hf _

/-- Rounds lead from trees there are to trees there are. -/
theorem reachable_after {i : Inspector} {format : Formatter} (hf : format.EditsOnly)
    (h : t.Reachable) (n : Nat) : (after i format t n).Reachable := by
  induction n with
  | zero => exact h
  | succ n ih =>
    rw [after_succ, pass]
    exact List.foldlRecOn _ (tried format) ih fun u hu d _ => reachable_tried hf hu d

end Rounds

/-! ### Diagnostics with fixes -/

/-- Why a name cannot be given brackets. -/
inductive Placed.Unfit (t : Tree) (name : Placed) : EditFault → Prop where
  | composite (children : name.children ≠ []) : Unfit t name (.notLeaf .attributeName name.span)
  /-- offsets do not reach the end of the source with the brackets -/
  | full (leaf : name.children = []) (long : 2 ^ 32 ≤ t.source.utf8ByteSize + 2) :
      Unfit t name .tooLong

/-- A diagnostic about a binding whose first name cannot be given brackets, so that renaming it is
refused. -/
structure Diagnostic.Blocked (d : Diagnostic) (t : Tree) : Prop where
  binding : ∃ b ∈ t.nodes, b.kind = .propertyBinding ∧ d.anchor.target = some b.id ∧
    ∃ name fault, b.child? .attributeName = some name ∧ name.Unfit t fault ∧
      ∃ fix more, d.fixes = fix :: more ∧ ∀ format, (fix.apply format t d.anchor).outcome =
        .error (.tree (.invalidEdit fault))

/-- **What is due at a binding** is blocked, unless its first fix is applied. -/
theorem AnimationTrigger.Due.blocked (due : Due t severity b d) (h : t.Numbered) (hb : b ∈ t.nodes)
    (kind : b.kind = .propertyBinding) :
    d.Blocked t ∨ ∃ fix more, d.fixes = fix :: more ∧
      Rounds.isApplied (fix.apply .idle t d.anchor).outcome = true := by
  obtain ⟨trigger, value, ⟨⟨name, named, text⟩, -, -⟩, reported⟩ := due
  have fixes : d.fixes = [.rename trigger, .removeValue] := by rw [reported]
  have target : d.anchor.target = some b.id := by rw [reported]
  have resolved : d.anchor.resolve t = .ok b :=
    Anchor.resolve_eq h hb (by rw [kind]; rfl) (by rw [reported]) target
  have edit : (Fix.rename trigger).edit? t b =
      .ok (some (.replace name.id (Fix.bindingForm trigger))) := Fix.edit?_rename named text
  have listed := Tree.mem_nodes_of_mem_children hb (Placed.mem_of_child? named)
  have found := h.node?_id listed
  -- it is blocked if its first edit is refused for one of the two reasons
  have blocked : ∀ fault, name.Unfit t fault →
      t.edit (.replace name.id (Fix.bindingForm trigger)) = .error (.invalidEdit fault) →
      d.Blocked t := by
    intro fault unfit refused
    refine ⟨b, hb, kind, target, name, fault, named, unfit, _, _, fixes, fun format => ?_⟩
    simp [Fix.apply, resolved, edit, bind, Except.bind, pure, Except.pure, Tree.tryEdit, refused]
  by_cases leaf : name.isLeaf = true
  · have length := h.lengthWith_bindingForm listed text
    by_cases room : t.lengthWith name (Fix.bindingForm trigger) < 2 ^ 32
    · have made : t.edit (.replace name.id (Fix.bindingForm trigger)) = .ok
          (t.alter name.id fun _ => .tail (Fix.bindingForm trigger), ⟨name.start,
            name.start + (Fix.bindingForm trigger).utf8ByteSize⟩) :=
        Tree.replaceText_eq_ok_iff.2 ⟨name, found, leaf, room, rfl, rfl⟩
      refine .inr ⟨_, _, fixes, ?_⟩
      simp [Fix.apply, resolved, edit, bind, Except.bind, pure, Except.pure, Tree.tryEdit, made,
        Rounds.isApplied]
    · have long := Nat.not_lt.1 room
      refine .inl (blocked _ (.full (Placed.children_eq_nil_iff.2 leaf) (length ▸ long)) ?_)
      exact Tree.replaceText_of_long found leaf long
  · refine .inl (blocked _ (.composite (mt Placed.children_eq_nil_iff.1 leaf)) ?_)
    rw [← Placed.kind_of_child? named]
    exact Tree.replaceText_of_composite found (Bool.eq_false_iff.2 leaf)

/-- An item belongs to one of the nodes. -/
theorem OneEach.exists_of_mem {α : Type} {ns : List Placed} {P : Placed → Prop}
    {R : Placed → α → Prop} {xs : List α} (each : OneEach ns P R xs) {x : α} (hx : x ∈ xs) :
    ∃ n ∈ ns, P n ∧ R n x := by
  obtain ⟨ms, -, -, mem, related⟩ := each
  obtain ⟨k, inside, rfl⟩ := List.getElem_of_mem hx
  have inside' : k < ms.length := related.length_eq ▸ inside
  obtain ⟨listed, holds⟩ := (mem _).1 (List.getElem_mem inside')
  exact ⟨ms[k], listed, holds, related.get inside' inside⟩

/-- Only what is due at bindings has fixes. -/
theorem Inspector.exists_due (h : t.Numbered) (hd : d ∈ Inspector.default.run t)
    (fixes : d.fixes ≠ []) :
    ∃ b ∈ t.nodes, b.kind = .propertyBinding ∧ AnimationTrigger.Due t .error b d := by
  have runs : Inspector.default.Runs .error .warning := List.Perm.refl _
  have distinct := Content.nodup_of_mem h.nodup Tree.top_mem_nodes
  have mem : d ∈ (Inspector.default.inspect t t.top).diagnostics := List.mem_mergeSort.1 hd
  rw [Inspector.inspect, runs.matching] at mem
  cases language : t.top.kind.language with
  | template =>
    rw [language] at mem
    obtain ⟨b, hb, ⟨outermost, -⟩, due⟩ :=
      (AnimationTrigger.lists_walk t .error distinct).diagnostics.exists_of_mem mem
    exact ⟨b, t.nodes_eq ▸ hb, outermost.1, due⟩
  | rules =>
    rw [language] at mem
    obtain ⟨n, -, -, due⟩ :=
      (EmptyEnum.lists_walk t .warning distinct).diagnostics.exists_of_mem mem
    obtain ⟨name, s, -, -, rfl⟩ := due
    exact absurd rfl fixes
  | common =>
    rw [language] at mem
    simp [Findings.none] at mem

namespace Rounds

/-- **A round that applies nothing** leaves the tree, and what has fixes is blocked. -/
theorem blocked_of_not_busy (h : t.Numbered) (idle : ¬ Busy .default .idle t 0) :
    pass .default .idle t = t ∧ ∀ d ∈ Inspector.default.run t, d.fixes ≠ [] → d.Blocked t := by
  have quiet : ∀ o ∈ outcomes .idle t (Inspector.default.run t), isApplied o = false :=
    fun o mem => Bool.not_eq_true _ ▸ fun yes => idle ⟨o, mem, yes⟩
  obtain ⟨same, refused⟩ := tried_of_quiet h quiet
  refine ⟨same, fun d hd fixes => ?_⟩
  obtain ⟨b, hb, kind, due⟩ := Inspector.exists_due h hd fixes
  rcases due.blocked h hb kind with blocked | ⟨fix, more, first, applied⟩
  · exact blocked
  · simp [refused d hd fix more first] at applied

/-- **When rounds converge**, what is left to fix is blocked. -/
theorem blocked_of_converged (h : t.Reachable) {limit k : Nat}
    (ended : (fixAll .default .idle limit t).ending = .converged k) :
    ∀ d ∈ Inspector.default.run (fixAll .default .idle limit t).progress.tree,
      d.fixes ≠ [] → d.Blocked (fixAll .default .idle limit t).progress.tree := by
  obtain ⟨ran, one, report⟩ := exists_ran .default .idle limit t
  rw [(progress_fixAll .default .idle limit t).1]
  rcases ending_eq_converged_iff.1 ended with idle | ⟨-, -, clean⟩
  · obtain ⟨-, -, quiet⟩ := report.converged k idle
    obtain ⟨n, rfl⟩ : ∃ n, ran = n + 1 := ⟨ran - 1, by omega⟩
    have there : (after .default .idle t n).Numbered :=
      (reachable_after Formatter.idle_editsOnly h n).numbered
    obtain ⟨same, blocked⟩ := blocked_of_not_busy there quiet
    rw [report.tree, after_succ, same]
    exact blocked
  · exact fun d hd fixes => absurd (fixable_eq_zero_iff.1 clean d hd) fixes

/-- A stored binding whose name is a node around a text. -/
def composite : Tree :=
  ⟨0, "", ⟨4, .propertyBinding, .node "" 1 .attributeName (.node "" 0 .text (.tail "@a") (.tail ""))
    (.node "" 3 .attributeValue (.node "" 2 .valueText (.tail "b") (.tail "")) (.tail ""))⟩, ""⟩

/-- What is found in it. -/
def assigned : Diagnostic where
  inspection := AnimationTrigger.inspection.id
  message := AnimationTrigger.message
  severity := .error
  anchor := ⟨0, 3, .attributeValue, ⟨2, 3⟩, some 4⟩
  location := some ⟨⟨1, 2⟩, ⟨1, 3⟩⟩
  fixes := [.rename "a", .removeValue]

theorem stored_composite : Tree.ofOutline 0 "@ab" ⟨.propertyBinding, ⟨0, 3⟩,
    .node .attributeName ⟨0, 2⟩ (.node .text ⟨0, 2⟩ .done .done)
      (.node .attributeValue ⟨2, 3⟩ (.node .valueText ⟨2, 3⟩ .done .done) .done)⟩ =
    .ok composite := by
  decide +kernel

/-- The round over it applies nothing, and what is found in it is found again. -/
theorem left_composite : (fixAll .default .idle 3 composite).ending = .converged 1 ∧
    assigned ∈ Inspector.default.run (fixAll .default .idle 3 composite).progress.tree := by
  decide +kernel

/-- The binding is left as it is. -/
theorem blocked_of_converged_of_composite :
    (fixAll .default .idle 3 composite).ending = .converged 1 ∧
    assigned ∈ Inspector.default.run (fixAll .default .idle 3 composite).progress.tree ∧
    assigned.fixes ≠ [] ∧ assigned.Blocked (fixAll .default .idle 3 composite).progress.tree := by
  obtain ⟨ended, left⟩ := left_composite
  have fixes : assigned.fixes ≠ [] := by decide
  exact ⟨ended, left, fixes, blocked_of_converged (.stored stored_composite) ended _ left fixes⟩

/-- Rounds over a stored tree may converge with a fix left. -/
theorem not_clean_of_composite : ¬ ∀ t : Tree, t.Reachable → ∀ limit k,
    (fixAll .default .idle limit t).ending = .converged k →
    ∀ d ∈ Inspector.default.run (fixAll .default .idle limit t).progress.tree, d.fixes = [] := by
  intro clean
  obtain ⟨ended, left⟩ := left_composite
  have nothing := clean composite (.stored stored_composite) 3 1 ended assigned left
  simp [assigned] at nothing

end Rounds

end SyntaxLint
