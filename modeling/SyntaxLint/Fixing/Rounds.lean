import SyntaxLint.Fixing.Apply
import SyntaxLint.Lint.Inspector

/-!
# Fixing — rounds

Fixing a tree goes in rounds.  A round inspects the tree and applies the first fix of every
diagnostic in order of position.  Rounds end when one applies nothing, when the text is one it was
before, or when as many were made as allowed.

* `Rounds.round`: one round.
* `Rounds.fixAll`: all rounds, with a report.
-/

namespace SyntaxLint

/-- Something that did not go as it should but stops nothing. -/
inductive Warning where
  | skipped (s : Skipped)
  | fixFailed (fix : Fix) (e : FixError)
  | formatRefused (e : TreeError)
  deriving DecidableEq, Repr

def Warning.message : Warning → String
  | skipped s => s.message
  | fixFailed fix e => "Fix " ++ fix.id ++ " failed: " ++ e.message
  | formatRefused e => "Skipping whitespace token: " ++ e.message

/-- How fixing ended. -/
inductive Ending where
  | converged (rounds : Nat)
  | limit (remaining : Nat)
  | cycle (length : Nat)
  deriving DecidableEq, Repr, Inhabited

/-- A tree being fixed, with what was done so far. -/
structure Progress where
  tree : Tree
  applied : Nat
  /-- the ranges that were formatted -/
  ranges : List Span
  warnings : List Warning
  deriving DecidableEq, Repr

/-- A tree after fixing. -/
structure Report where
  ending : Ending
  progress : Progress
  deriving DecidableEq, Repr

namespace Rounds

/-- Before the first round. -/
def start (t : Tree) : Progress := ⟨t, 0, [], []⟩

/-- Records the nodes that a pass skipped. -/
def note (p : Progress) (f : Findings) : Progress :=
  { p with warnings := p.warnings ++ f.skipped.map .skipped }

/-- What an error of a fix is worth a warning for: a stale anchor is not. -/
def failure (fix : Fix) : Except FixError FixOutcome → List Warning
  | .ok _ => []
  | .error (.stale _) => []
  | .error e => [.fixFailed fix e]

/-- Whether an outcome changed the tree. -/
def isApplied : Except FixError FixOutcome → Bool
  | .ok (.applied _) => true
  | _ => false

/-- Applies the first fix of a diagnostic. -/
def applyFirst (format : Formatter) (p : Progress) (d : Diagnostic) : Progress :=
  match d.fixes with
  | [] => p
  | fix :: _ =>
    let a := fix.apply format p.tree d.anchor
    { tree := a.tree
      applied := p.applied + if isApplied a.outcome then 1 else 0
      ranges := p.ranges ++ a.ranges
      warnings := p.warnings ++ a.refused.map .formatRefused ++ failure fix a.outcome }

/-- One round. -/
def round (inspector : Inspector) (format : Formatter) (p : Progress) : Progress :=
  let f := inspector.findings p.tree
  (Diagnostic.sort f.diagnostics).foldl (applyFirst format) (note p f)

/-- Makes at most `left` rounds after `made` others.  The texts before these rounds are `history`,
oldest first.  The ending is none when the rounds ran out. -/
def iterate (inspector : Inspector) (format : Formatter) :
    Nat → Nat → List String → Progress → Option Ending × Progress
  | 0, _, _, p => (none, p)
  | left + 1, made, history, p =>
    let q := round inspector format p
    if q.applied = p.applied then (some (.converged (made + 1)), q)
    else
      match history.findIdx? (· == q.tree.source) with
      | some i => (some (.cycle (history.length - i)), q)
      | none => iterate inspector format left (made + 1) (history ++ [q.tree.source]) q

/-- The number of rounds that a limit allows: one at least. -/
def allowed (limit : Nat) : Nat := max limit 1

/-- The number of diagnostics of a tree that have a fix. -/
def fixable (inspector : Inspector) (t : Tree) : Nat :=
  ((inspector.run t).filter fun d => !d.fixes.isEmpty).length

/-- Fixes a tree in at most `limit` rounds. -/
def fixAll (inspector : Inspector) (format : Formatter) (limit : Nat) (t : Tree) : Report :=
  match iterate inspector format (allowed limit) 0 [t.source] (start t) with
  | (some ending, p) => ⟨ending, p⟩
  | (none, p) =>
    let remaining := fixable inspector p.tree
    ⟨if remaining = 0 then .converged (allowed limit) else .limit remaining,
      note p (inspector.findings p.tree)⟩

/-- The limit when settings give none. -/
def defaultLimit : Nat := Settings.default.maxRounds

end Rounds

end SyntaxLint
