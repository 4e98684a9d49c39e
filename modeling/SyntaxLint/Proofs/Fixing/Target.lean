import SyntaxLint.Fixing.Apply
import SyntaxLint.Proofs.Tree.Lookup

/-!
# Proofs — Fixing — the target of a fix

An anchor aims at one node of any tree: the recorded target, or else the parent of the node it was
taken at.  It resolves to that node if the tree is the one it belongs to and the node is an
attribute, and is stale in every other case.

* `Anchor.aim?`: the node that an anchor aims at.
* `Anchor.resolve_eq_ok_iff`, `Anchor.resolve_eq_stale_iff`: what it resolves to.
-/

namespace SyntaxLint.Anchor

variable {anchor : Anchor} {t : Tree} {b : Placed}

/-- The node that fixes at an anchor may change if it is an attribute. -/
def aim? (anchor : Anchor) (t : Tree) : Option Placed :=
  match anchor.target with
  | some id => t.node? id
  | none => (t.node? anchor.node).bind t.parent?

/-- In its own tree an anchor resolves to what it aims at, if that is an attribute. -/
theorem resolve_eq_elim : anchor.resolve t =
    if anchor.tree = t.identity then
      ((anchor.aim? t).filter (·.kind.isAttribute)).elim (.error (.stale anchor.span)) .ok
    else .error (.stale anchor.span) := by
  by_cases same : anchor.tree = t.identity
  · simp only [resolve, aim?, same, bne_self_eq_false, Bool.false_eq_true, if_false, if_true]
    cases anchor.target with
    | some id => cases (t.node? id).filter (·.kind.isAttribute) <;> rfl
    | none => cases ((t.node? anchor.node).bind t.parent?).filter (·.kind.isAttribute) <;> rfl
  · simp [resolve, same]

theorem resolve_eq_ok_iff : anchor.resolve t = .ok b ↔
    anchor.tree = t.identity ∧ anchor.aim? t = some b ∧ b.kind.isAttribute = true := by
  have attr : (anchor.aim? t).filter (·.kind.isAttribute) = some b ↔
      anchor.aim? t = some b ∧ b.kind.isAttribute = true := Option.filter_eq_some_iff
  rw [resolve_eq_elim, ← attr]
  by_cases same : anchor.tree = t.identity
  · simp only [same, if_true, true_and]
    cases (anchor.aim? t).filter (·.kind.isAttribute) <;> simp
  · simp [same]

theorem eq_stale_of_resolve {e : FixError} (h : anchor.resolve t = .error e) :
    e = .stale anchor.span := by
  rw [resolve_eq_elim] at h
  by_cases same : anchor.tree = t.identity
  · simp only [same, if_true] at h
    cases aimed : (anchor.aim? t).filter (·.kind.isAttribute) <;> simp_all
  · simp_all

/-- An anchor that resolves to nothing is stale. -/
theorem resolve_eq_stale_iff :
    anchor.resolve t = .error (.stale anchor.span) ↔ ∀ b, anchor.resolve t ≠ .ok b := by
  cases h : anchor.resolve t with
  | ok b => simp
  | error e => simp [eq_stale_of_resolve h]

/-- What an anchor resolves to is alive. -/
theorem mem_of_resolve (h : anchor.resolve t = .ok b) : b ∈ t.nodes := by
  obtain ⟨-, found, -⟩ := resolve_eq_ok_iff.1 h
  rw [aim?] at found
  split at found
  · exact List.mem_of_find?_eq_some found
  · obtain ⟨m, -, parent⟩ := Option.bind_eq_some_iff.1 found
    exact Tree.mem_nodes_of_parent? parent

/-- The node that a binding is anchored to is found. -/
theorem resolve_eq (ht : t.Numbered) (hb : b ∈ t.nodes) (kind : b.kind.isAttribute)
    (tree : anchor.tree = t.identity) (target : anchor.target = some b.id) :
    anchor.resolve t = .ok b :=
  resolve_eq_ok_iff.2 ⟨tree, by rw [aim?, target]; exact ht.node?_id hb, kind⟩

end SyntaxLint.Anchor
