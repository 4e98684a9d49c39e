import SyntaxLint.Command.Arguments
import SyntaxLint.Json.Printer
import SyntaxLint.Lint.Encoding
import SyntaxLint.Lint.Inspector

/-!
# The command line — reports

What is printed about the files of a check: findings by file as text or as JSON, and before them,
when fixes were asked for, how many were made in which file.
-/

namespace SyntaxLint

open Text

/-- What a check tells about a file. -/
structure FileReport where
  path : Path
  diagnostics : List Diagnostic
  /-- the number of fixes that were made -/
  fixes : Nat
  deriving DecidableEq, Repr

/-- A text and the end of its line. -/
def Text.line (s : String) : String := s ++ "\n"

/-- Where a diagnostic is: line and column, both counted from one. -/
def Diagnostic.position (d : Diagnostic) : String :=
  match d.location with
  | some l => toString l.start.line ++ ":" ++ toString (l.start.column + 1)
  | none => toString d.span.start ++ ":" ++ toString d.span.stop

/-- A diagnostic on one line. -/
def Diagnostic.summary (d : Diagnostic) : String :=
  d.position ++ " " ++ d.severity.name ++ " [" ++ d.inspection ++ "]: " ++ d.message

namespace FileReport

/-- The diagnostics of a file, each with its fixes below it. -/
def text (r : FileReport) : String :=
  if r.diagnostics.isEmpty then ""
  else
    line "" ++ line (r.path.text ++ ":") ++
      String.join (r.diagnostics.map fun d =>
        line ("  " ++ d.summary) ++
          String.join (d.fixes.map fun f => line ("      fix: " ++ f.title)))

/-- The diagnostics of a file as JSON. -/
def toJson (r : FileReport) : Json :=
  .object [("diagnostics", .array (r.diagnostics.map Diagnostic.toJson)),
    ("path", .string r.path.text)]

/-- Whether there is a diagnostic that counts as an error. -/
def hasErrors (r : FileReport) : Bool := r.diagnostics.any (·.severity == .error)

/-- The diagnostics of files, and how many there are. -/
def listing (rs : List FileReport) : String :=
  String.join (rs.map text) ++ line "" ++
    line ("Checked " ++ toString rs.length ++ " files, found " ++
      toString (rs.foldl (fun n r => n + r.diagnostics.length) 0) ++ " issues")

/-- The fixes made in files, if there are any. -/
def fixListing (preview : Bool) (rs : List FileReport) : String :=
  let fixed := rs.filter (0 < ·.fixes)
  let fixes := fixed.foldl (fun n r => n + r.fixes) 0
  if fixed.isEmpty then line "No fixable issues found."
  else
    line "" ++
      line ((if preview then "Would fix " else "Fixed ") ++ toString fixes ++
        " issues in " ++ toString fixed.length ++ " files:") ++
      String.join (fixed.map fun r =>
        line ("  " ++ r.path.text ++ ": " ++ toString r.fixes ++ " fixes")) ++
      if preview then line "" ++ line "Run without --dry-run to apply fixes." else ""

/-- Everything that is printed about files. -/
def output (layout : Layout) (mode : FixMode) (rs : List FileReport) : String :=
  match layout with
  | .json => line (Json.array (rs.map toJson)).pretty
  | .text =>
    (match mode with
      | .leave => ""
      | .preview => fixListing true rs
      | .apply => fixListing false rs) ++ listing rs

end FileReport

/-- A text filled up with spaces to a width. -/
def Text.padded (width : Nat) (s : String) : String :=
  s ++ String.ofList (List.replicate (width - s.length) ' ')

/-- What is printed about an inspection that runs. -/
def Registered.text (r : Registered) : String :=
  line (padded 40 r.inspection.id ++ " " ++ padded 8 r.severity.name ++ " " ++
    padded 9 r.inspection.language.name ++ " " ++ r.inspection.description)

end SyntaxLint
