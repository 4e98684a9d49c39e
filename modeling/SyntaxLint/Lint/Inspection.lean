import SyntaxLint.Lint.Diagnostic
import SyntaxLint.Tree.Walk
import SyntaxLint.View.Basic

/-!
# Linting — inspections

An inspection is a rule for the trees of one language.  For every pass it gives a visitor, which
reports what it finds.  A check that meets a node without a child its grammar promises ends there:
the node is noted as skipped, what was reported before is kept, and the walk goes on.

* `Findings.register`, `Findings.skip`: what is found, with the counters that inspections share.
* `Reporter.report`, `Reporter.check`: what a visitor of an inspection has at hand.
-/

namespace SyntaxLint

/-- A node that a check gave up on. -/
structure Skipped where
  inspection : String
  kind : Kind
  span : Span
  cause : MissingChild
  deriving DecidableEq, Repr

def Skipped.message (s : Skipped) : String :=
  "Skipping " ++ describe s.kind s.span ++ ": " ++ s.cause.message ++ " inspection=\"" ++
    s.inspection ++ "\""

/-- What a pass has found so far, in order, and the counters that its inspections share. -/
structure Findings where
  diagnostics : List Diagnostic
  skipped : List Skipped
  reported : Nat
  malformed : Nat
  deriving DecidableEq, Repr, Inhabited

namespace Findings

/-- Nothing found. -/
def none : Findings := ⟨[], [], 0, 0⟩

/-- One more diagnostic. -/
def register (f : Findings) (d : Diagnostic) : Findings :=
  { f with diagnostics := f.diagnostics ++ [d], reported := f.reported + 1 }

/-- One more node that a check gave up on. -/
def skip (f : Findings) (s : Skipped) : Findings :=
  { f with skipped := f.skipped ++ [s], malformed := f.malformed + 1 }

/-- Diagnostics and nodes that checks gave up on, added to what was found before and counted. -/
def more (f : Findings) (ds : List Diagnostic) (ss : List Skipped) : Findings :=
  ⟨f.diagnostics ++ ds, f.skipped ++ ss, f.reported + ds.length, f.malformed + ss.length⟩

theorem register_eq (f : Findings) (d : Diagnostic) : f.register d = f.more [d] [] := by
  simp [register, more]

theorem skip_eq (f : Findings) (s : Skipped) : f.skip s = f.more [] [s] := by
  simp [skip, more]

@[simp] theorem more_nil (f : Findings) : f.more [] [] = f := by simp [more]

@[simp] theorem more_more (f : Findings) (ds es : List Diagnostic) (ss us : List Skipped) :
    (f.more ds ss).more es us = f.more (ds ++ es) (ss ++ us) := by
  simp [more, Nat.add_assoc]

end Findings

/-- Reports on one tree for one inspection. -/
structure Reporter where
  tree : Tree
  inspection : String
  severity : Severity

namespace Reporter

/-- A diagnostic at a node. -/
def diagnostic (r : Reporter) (n : Placed) (message : String) (fixes : List Fix) : Diagnostic where
  inspection := r.inspection
  message := message
  severity := r.severity
  anchor := Anchor.at r.tree n
  location := some (r.tree.location n.span)
  fixes := fixes

/-- Reports a diagnostic at a node. -/
def report (r : Reporter) (n : Placed) (message : String) (fixes : List Fix) (f : Findings) :
    Findings :=
  f.register (r.diagnostic n message fixes)

/-- Runs a check of a node, which may end at a missing child. -/
def check (r : Reporter) (n : Placed) (action : Findings → Findings × Except MissingChild Unit)
    (f : Findings) : Findings :=
  match action f with
  | (f, .ok ()) => f
  | (f, .error cause) => f.skip ⟨r.inspection, n.kind, n.span, cause⟩

end Reporter

/-- A rule for the trees of one language. -/
structure Inspection where
  id : String
  description : String
  language : Language
  severity : Severity
  visitor : Reporter → Visitor Findings

end SyntaxLint
