import SyntaxLint.Files.Path

/-!
# The command line — arguments

Arguments are words.  A word after two dashes names an option, one after a single dash a cluster of
options by their letters, and any other is plain; two dashes alone make every later word plain.
The first plain word names the command, and the options that follow are the command's.  An option
is given once; those of all commands may stand on either side of the name.

* `Request.ofArguments`: what arguments ask for.
-/

namespace SyntaxLint

/-- How results are shown. -/
inductive Layout where
  | text
  | json
  deriving DecidableEq, Repr, Inhabited

/-- What happens to findings that have a fix. -/
inductive FixMode where
  | leave
  | preview
  | apply
  deriving DecidableEq, Repr, Inhabited

/-- What is to be done. -/
inductive Command where
  | check (paths : List Path) (layout : Layout) (mode : FixMode)
  | dump (path : Path)
  | rules
  deriving DecidableEq, Repr, Inhabited

/-- What arguments ask for. -/
inductive Request where
  | version
  /-- a command, and the path of the settings if it is given -/
  | run (settings : Option Path) (command : Command)
  deriving DecidableEq, Repr, Inhabited

/-- Why arguments ask for nothing. -/
inductive UsageError where
  | unknownOption (word : String)
  | unwantedValue (word : String)
  | missingValue (word : String)
  | invalidValue (word : String)
  | repeated (word : String)
  | unknownCommand (word : String)
  | missingCommand
  | missingPath
  | unwantedWord (word : String)
  | previewWithoutFix
  deriving DecidableEq, Repr, Inhabited

def UsageError.message : UsageError → String
  | unknownOption word => "unexpected argument: " ++ word
  | unwantedValue word => "a value is not expected for " ++ word
  | missingValue word => "a value is required for " ++ word
  | invalidValue word => "the value is invalid for " ++ word
  | repeated word => "the argument is given more than once: " ++ word
  | unknownCommand word => "unrecognized subcommand: " ++ word
  | missingCommand => "a subcommand is required"
  | missingPath => "a path is required"
  | unwantedWord word => "unexpected argument: " ++ word
  | previewWithoutFix => "--dry-run requires --fix"

/-- What an option sets. -/
inductive Switch where
  | settings
  | verbose
  | version
  | layout
  | fix
  | preview
  deriving DecidableEq, Repr, Inhabited

/-- Whose options may be given. -/
inductive Scope where
  /-- before the name of a command -/
  | outer
  | check
  | dump
  | rules
  deriving DecidableEq, Repr, Inhabited

namespace Switch

/-- The name after two dashes. -/
def name : Switch → String
  | settings => "config"
  | verbose => "verbose"
  | version => "version"
  | layout => "format"
  | fix => "fix"
  | preview => "dry-run"

/-- The letter after one dash. -/
def letter? : Switch → Option Char
  | settings => some 'c'
  | verbose => some 'v'
  | version => some 'V'
  | layout => some 'f'
  | fix => none
  | preview => none

/-- Whether a value goes with the option. -/
def hasValue : Switch → Bool
  | settings => true
  | layout => true
  | _ => false

end Switch

namespace Scope

/-- The options of a scope. -/
def switches : Scope → List Switch
  | outer => [.settings, .verbose, .version]
  | check => [.settings, .verbose, .layout, .fix, .preview]
  | dump => [.settings, .verbose]
  | rules => [.settings, .verbose]

/-- The option of a name. -/
def ofName? (s : Scope) (name : String) : Option Switch := s.switches.find? (·.name == name)

/-- The option of a letter. -/
def ofLetter? (s : Scope) (c : Char) : Option Switch := s.switches.find? (·.letter? == some c)

/-- The scope of the command of a name. -/
def ofCommand? : String → Option Scope
  | "check" => some check
  | "dump" => some dump
  | "rules" => some rules
  | _ => none

end Scope

/-- Why no more arguments are read. -/
inductive Halt where
  | version
  | error (e : UsageError)
  deriving DecidableEq, Repr, Inhabited

/-- What is given in one scope. -/
structure Given where
  settings : Option Path
  /-- asks for a log of each step, which is not kept -/
  verbose : Bool
  layout : Option Layout
  fix : Bool
  preview : Bool
  /-- the plain words -/
  words : List String
  deriving DecidableEq, Repr, Inhabited

/-- A layout by name. -/
def Layout.ofName? : String → Option Layout
  | "text" => some .text
  | "json" => some .json
  | _ => none

namespace Given

/-- Nothing. -/
def none : Given := ⟨.none, false, .none, false, false, []⟩

/-- A path by its text, which is not empty. -/
def path? (text : String) : Option Path := if text.isEmpty then .none else some ⟨text⟩

/-- Whether an option was given. -/
def has (g : Given) : Switch → Bool
  | .settings => g.settings.isSome
  | .verbose => g.verbose
  | .version => false
  | .layout => g.layout.isSome
  | .fix => g.fix
  | .preview => g.preview

/-- Sets an option, with its value if it has one, as the word `word` does. -/
def set (g : Given) (word : String) (o : Switch) (value : String) : Except Halt Given :=
  if g.has o then .error (.error (.repeated word))
  else match o with
    | .settings =>
      match path? value with
      | some p => .ok { g with settings := some p }
      | .none => .error (.error (.invalidValue word))
    | .verbose => .ok { g with verbose := true }
    | .version => .error .version
    | .layout =>
      match Layout.ofName? value with
      | some l => .ok { g with layout := some l }
      | .none => .error (.error (.invalidValue word))
    | .fix => .ok { g with fix := true }
    | .preview => .ok { g with preview := true }

/-- Reads what follows two dashes.  The option is left over when its value is the next word. -/
def long (s : Scope) (g : Given) (word : String) (cs : List Char) :
    Except Halt (Given × Option Switch) :=
  match cs.span (· != '=') with
  | (name, rest) =>
    match s.ofName? (String.ofList name) with
    | .none => .error (.error (.unknownOption word))
    | some o =>
      match o.hasValue, rest with
      | true, [] => .ok (g, some o)
      | true, _ :: value => (·, .none) <$> g.set word o (String.ofList value)
      | false, [] => (·, .none) <$> g.set word o ""
      | false, _ :: _ => .error (.error (.unwantedValue word))

/-- Reads the letters of a cluster.  What follows the letter of an option with a value is the
value. -/
def cluster (s : Scope) (word : String) : Given → List Char → Except Halt (Given × Option Switch)
  | g, [] => .ok (g, .none)
  | g, c :: cs =>
    match s.ofLetter? c with
    | .none => .error (.error (.unknownOption word))
    | some o =>
      if o.hasValue then
        match cs with
        | [] => .ok (g, some o)
        | '=' :: value => (·, .none) <$> g.set word o (String.ofList value)
        | value => (·, .none) <$> g.set word o (String.ofList value)
      else
        match g.set word o "" with
        | .ok h => cluster s word h cs
        | .error e => .error e

/-- Reads a word that is no plain one. -/
def option (s : Scope) (g : Given) (word : String) : List Char → Except Halt (Given × Option Switch)
  | '-' :: '-' :: cs => g.long s word cs
  | '-' :: cs => cluster s word g cs
  | _ => .ok (g, .none)

/-- Whether a word is a plain one. -/
def isPlain : List Char → Bool
  | '-' :: _ :: _ => false
  | _ => true

/-- Reads words.  Outside a command the first plain word ends the reading; what is left begins with
it. -/
def read (s : Scope) (g : Given) : List String → Except Halt (Given × List String)
  | [] => .ok (g, [])
  | word :: rest =>
    if isPlain word.toList then
      if s = .outer then .ok (g, word :: rest)
      else read s { g with words := g.words ++ [word] } rest
    else if word = "--" then
      if s = .outer then
        .error (.error (match rest with | [] => .missingCommand | w :: _ => .unwantedWord w))
      else .ok ({ g with words := g.words ++ rest }, [])
    else
      match g.option s word word.toList with
      | .error e => .error e
      | .ok (h, .none) => read s h rest
      | .ok (h, some o) =>
        match rest with
        | [] => .error (.error (.missingValue word))
        | value :: more =>
          if isPlain value.toList then
            match h.set word o value with
            | .ok h => read s h more
            | .error e => .error e
          else .error (.error (.missingValue word))

/-- The paths that the plain words are. -/
def paths (g : Given) : Except UsageError (List Path) :=
  match g.words.mapM path? with
  | some ps => .ok ps
  | .none => .error (.invalidValue "path")

/-- What happens to findings that have a fix. -/
def mode (g : Given) : Except UsageError FixMode :=
  match g.fix, g.preview with
  | true, true => .ok .preview
  | true, false => .ok .apply
  | false, true => .error .previewWithoutFix
  | false, false => .ok .leave

/-- The command that is given in its scope. -/
def command (g : Given) : Scope → Except UsageError Command
  | .outer => .error .missingCommand
  | .check => do
    match ← g.paths with
    | [] => .error .missingPath
    | paths => return .check paths (g.layout.getD .text) (← g.mode)
  | .dump => do
    match ← g.paths with
    | [] => .error .missingPath
    | [path] => return .dump path
    | _ :: path :: _ => .error (.unwantedWord path.text)
  | .rules =>
    match g.words with
    | [] => .ok .rules
    | word :: _ => .error (.unwantedWord word)

end Given

namespace Request

/-- What arguments ask for, or where their reading stops. -/
def read (arguments : List String) : Except Halt Request :=
  match Given.none.read .outer arguments with
  | .error e => .error e
  | .ok (_, []) => .error (.error .missingCommand)
  | .ok (outer, name :: rest) =>
    match Scope.ofCommand? name with
    | none => .error (.error (.unknownCommand name))
    | some scope =>
      match Given.none.read scope rest with
      | .error e => .error e
      | .ok (inner, _) =>
        match inner.command scope with
        | .error e => .error (.error e)
        | .ok command => .ok (.run (inner.settings.or outer.settings) command)

/-- What arguments ask for. -/
def ofArguments (arguments : List String) : Except UsageError Request :=
  match read arguments with
  | .ok r => .ok r
  | .error .version => .ok .version
  | .error (.error e) => .error e

end Request

end SyntaxLint
