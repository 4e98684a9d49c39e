import SyntaxLint.Fixing.Session
import SyntaxLint.Lint.Diagnostic
import SyntaxLint.View.Basic

/-!
# Fixing — applying a fix

A fix is applied to whatever the tree looks like by then.  Its target is looked up anew and has to
be a live attribute of the tree that the anchor belongs to; a fix that finds its work done changes
nothing; any other fix is a session of one edit.

* `Anchor.resolve`: the attribute that a fix at an anchor may change.
* `Fix.apply`: the outcome, the tree after it and the range formatted.
-/

namespace SyntaxLint

/-- Why a fix is not applied. -/
inductive FixError where
  | stale (span : Span)
  | tree (e : TreeError)
  | malformed (e : MissingChild)
  deriving DecidableEq, Repr

def FixError.message : FixError → String
  | stale s =>
    "Stale anchor at " ++ toString s.start ++ ".." ++ toString s.stop ++
      ": the fix target no longer exists"
  | tree e => "Tree edit failed: " ++ e.message
  | malformed e => e.message

/-- What became of a fix that was applied. -/
inductive FixOutcome where
  | applied (span : Span)
  | unchanged
  deriving DecidableEq, Repr, Inhabited

/-- The attribute that a fix at an anchor may change. -/
def Anchor.resolve (a : Anchor) (t : Tree) : Except FixError Placed :=
  let node :=
    if a.tree != t.identity then none
    else
      match a.target with
      | some id => t.node? id
      | none => (t.node? a.node).bind t.parent?
  match node.filter (·.kind.isAttribute) with
  | some n => .ok n
  | none => .error (.stale a.span)

/-- What applying a fix did. -/
structure Applied where
  outcome : Except FixError FixOutcome
  tree : Tree
  /-- the ranges that were formatted -/
  ranges : List Span
  refused : List TreeError

namespace Fix

/-- A child that an attribute has to have for a fix. -/
def required (n : Placed) (kind : Kind) : Except FixError Placed :=
  match n.required kind with
  | .ok c => .ok c
  | .error e => .error (.malformed e)

/-- The name that a trigger is bound by. -/
def bindingForm (trigger : String) : String := "[@" ++ trigger ++ "]"

/-- The edit that a fix makes to an attribute, if it has anything to do. -/
def edit? (t : Tree) (target : Placed) : Fix → Except FixError (Option Edit)
  | rename trigger => do
    let name ← required target .attributeName
    if name.text = bindingForm trigger then return none
    else return some (.replace name.id (bindingForm trigger))
  | removeValue =>
    match target.child? .attributeValue with
    | none => return none
    | some value => do
      let name ← required target .attributeName
      return some (.remove target.id ((t.next? name).getD value).id value.id)

/-- What a fix tells of the span that its edit was told with. -/
def changed : Fix → Span → Span
  | rename _, s => s
  | removeValue, s => .emptyAt s.start

/-- Applies a fix to a tree. -/
def apply (fix : Fix) (format : Formatter) (t : Tree) (anchor : Anchor) : Applied :=
  let edit := do
    let target ← anchor.resolve t
    return (target, ← fix.edit? t target)
  match edit with
  | .error e => ⟨.error e, t, [], []⟩
  | .ok (_, none) => ⟨.ok .unchanged, t, [], []⟩
  | .ok (target, some e) =>
    let edited := t.tryEdit e
    let outcome :=
      match edited.result with
      | .ok s => .ok (.applied (fix.changed s))
      | .error e => .error (.tree e)
    let closing := Session.close format t edited.tree target.id
    ⟨outcome, closing.formatted.tree, [closing.range], closing.formatted.refused⟩

end Fix

end SyntaxLint
