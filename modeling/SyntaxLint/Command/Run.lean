import SyntaxLint.Command.Report
import SyntaxLint.Files.Discovery
import SyntaxLint.Fixing.Rounds
import SyntaxLint.Text.Number

/-!
# The command line — commands

What a command does to a disk.  Nothing is done by a refused command; any other has an outcome,
which says what is printed and logged, which files are written and whether something is wrong.

* `Command.run`: the outcome of a command.
* `Request.outcome`, `Request.exitCode`: the outcome of arguments, and what the caller is told.
-/

namespace SyntaxLint

open Text

/-- Something worth a line in the log. -/
inductive LogEntry where
  | warning (message : String)
  | error (message : String)
  deriving DecidableEq, Repr, Inhabited

/-- An entry as it is logged: nothing in it steers the terminal it is read on. -/
def LogEntry.text : LogEntry → String
  | warning message => "WARN " ++ tame message
  | error message => "ERROR " ++ tame message

/-- What a command did. -/
structure Outcome where
  /-- whether there are findings that count as errors, or files that could not be checked -/
  isBad : Bool
  output : String
  log : List LogEntry
  /-- the files that are written -/
  writes : List (Path × String)
  deriving DecidableEq, Repr, Inhabited

/-- Why a command does nothing. -/
inductive Refusal where
  | usage (e : UsageError)
  | unreadableSettings (p : Path)
  | inspector (e : InspectorError)
  | pattern (e : PatternError)
  | load (e : LoadError)
  deriving Repr

def Refusal.message : Refusal → String
  | usage e => e.message
  | unreadableSettings p => "Configuration error: Failed to read config: " ++ p.text
  | inspector e => e.message
  | pattern e => "Invalid exclude pattern: " ++ e.message
  | load e => e.message

/-! ### Settings -/

/-- The name of files that hold settings. -/
def Settings.fileName : String := ".treelint.json"

/-- Settings, with the directory their patterns are relative to. -/
structure LocatedSettings where
  settings : Settings
  base : Option Place
  deriving DecidableEq, Repr, Inhabited

/-- The place of the settings nearest to the working directory. -/
def Disk.settingsPlace? (d : Disk) : Option Place :=
  (d.here.ancestors.map (· ++ [Settings.fileName])).find? fun p => (d.file? p).isSome

namespace LocatedSettings

/-- The settings in a file at a place. -/
def ofFile (path : Path) (place : Place) : Option Stored → Except Refusal LocatedSettings
  | some (.text s) =>
    match Settings.ofText s with
    | .ok settings => .ok ⟨settings, some place.dropLast⟩
    | .error e => .error (.inspector (.settings e))
  | _ => .error (.unreadableSettings path)

/-- The settings in the given file, or else in the nearest one, or else those without a file. -/
def load (d : Disk) : Option Path → Except Refusal LocatedSettings
  | some path => ofFile path (path.place d.here) (d.read? path)
  | none =>
    match d.settingsPlace? with
    | some place => ofFile place.path place (d.file? place)
    | none => .ok ⟨.default, none⟩

/-- The inspector that settings ask for. -/
def inspector (s : LocatedSettings) : Except Refusal Inspector :=
  (Inspector.ofSettings s.settings).mapError .inspector

/-- What settings leave out. -/
def exclusion (s : LocatedSettings) : Except Refusal Exclusion :=
  (Exclusion.ofTexts s.settings.exclude s.base).mapError .pattern

end LocatedSettings

/-! ### Checking a file -/

/-- What the check of a file did. -/
structure Checked where
  /-- none when the file holds no tree -/
  report? : Option FileReport
  log : List LogEntry
  writes : List (Path × String)
  deriving DecidableEq, Repr

/-- What is logged about the nodes that a pass over a tree skipped. -/
def Inspector.log (i : Inspector) (t : Tree) : List LogEntry :=
  (i.findings t).skipped.map fun s => .warning s.message

/-- What is logged about how fixing a file ended. -/
def Ending.log (p : Path) : Ending → List LogEntry
  | converged _ => []
  | limit remaining =>
    [.warning (p.text ++ ": " ++ toString remaining ++
      " fixable issue(s) remain after the round limit")]
  | cycle length => [.warning (p.text ++ ": fixes cycle with length " ++ toString length)]

/-- What is logged about fixing a file. -/
def Report.log (r : Report) (p : Path) : List LogEntry :=
  r.progress.warnings.map (fun w => .warning w.message) ++ r.ending.log p

namespace Source

/-- Checks a file without fixes. -/
def inspect (s : Source) (i : Inspector) : Checked :=
  ⟨some ⟨s.path, i.run s.tree, 0⟩, i.log s.tree, []⟩

/-- Checks a file and makes fixes.  When they are kept, what counts is what is found after
them. -/
def fix (s : Source) (i : Inspector) (limit : Nat) (keep : Bool) : Checked :=
  let r := Rounds.fixAll i Formatter.whitespace limit s.tree
  let log := i.log s.tree ++ r.log s.path
  if keep && r.progress.applied != 0 then
    let fixed := { s with tree := r.progress.tree }
    ⟨some ⟨s.path, i.run fixed.tree, r.progress.applied⟩, log ++ i.log fixed.tree,
      [(s.path, fixed.text)]⟩
  else ⟨some ⟨s.path, i.run s.tree, r.progress.applied⟩, log, []⟩

/-- Checks a file. -/
def check (s : Source) (i : Inspector) (limit : Nat) : FixMode → Checked
  | .leave => s.inspect i
  | .preview => s.fix i limit false
  | .apply => s.fix i limit true

end Source

/-- Checks the file that a path leads to. -/
def Disk.check (d : Disk) (i : Inspector) (limit : Nat) (mode : FixMode) (identity : TreeId)
    (path : Path) : Checked :=
  match Source.load d identity path with
  | .ok s => s.check i limit mode
  | .error e => ⟨none, [.error (path.text ++ ": " ++ e.message)], []⟩

/-! ### Commands -/

namespace Outcome

/-- An outcome that is printed and nothing else. -/
def print (output : String) : Outcome := ⟨false, output, [], []⟩

/-- The outcome of checking files. -/
def ofChecked (layout : Layout) (mode : FixMode) (cs : List Checked) : Outcome :=
  let reports := cs.filterMap (·.report?)
  { isBad := cs.any fun c => c.report?.all (·.hasErrors)
    output := FileReport.output layout mode reports
    log := cs.flatMap (·.log)
    writes := cs.flatMap (·.writes) }

end Outcome

namespace Command

/-- The outcome of a command with the settings at a path, if it is given. -/
def run (d : Disk) (settings : Option Path) : Command → Except Refusal Outcome
  | check paths layout mode => do
    let s ← LocatedSettings.load d settings
    let i ← s.inspector
    let x ← s.exclusion
    return .ofChecked layout mode
      ((d.discover x paths).mapIdx fun identity path =>
        d.check i s.settings.maxRounds mode identity path)
  | dump path =>
    match Source.load d 0 path with
    | .ok s => .ok (.print (Form.document.text s.tree))
    | .error e => .error (.load e)
  | rules => do
    let s ← LocatedSettings.load d settings
    let i ← s.inspector
    return .print (String.join (i.registered.map Registered.text))

end Command

namespace Request

/-- What `--version` prints. -/
def versionText : String := line "treelint 0.1.0"

/-- The outcome of arguments. -/
def outcome (d : Disk) (arguments : List String) : Except Refusal Outcome :=
  match ofArguments arguments with
  | .error e => .error (.usage e)
  | .ok .version => .ok (.print versionText)
  | .ok (.run settings command) => command.run d settings

/-- What the caller is told: nothing is wrong, something is, or nothing was done. -/
def exitCode : Except Refusal Outcome → Nat
  | .ok o => if o.isBad then 1 else 0
  | .error _ => 2

end Request

end SyntaxLint
