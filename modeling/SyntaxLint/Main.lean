import SyntaxLint.Command.Run

/-!
# The program

Runs the arguments on the disk.  Files that arguments name are read where they are; the files below
directories come on standard input, a path a line, as a file finder lists them.
-/

open SyntaxLint

/-- The lines of a stream. -/
partial def readLines (input : IO.FS.Stream) (found : Array String) : IO (Array String) := do
  let l ← input.getLine
  if l.isEmpty then return found
  readLines input (found.push (l.dropEndWhile (· == '\n')).toString)

/-- A file, if it can be read, with its place from the directory `here`. -/
def readFile? (here : Place) (path : String) : IO (Option (Place × Stored)) := do
  try
    let bytes ← IO.FS.readBinFile path
    let stored := match String.fromUTF8? bytes with
      | some s => Stored.text s
      | none => .garbled
    return some (Path.place here ⟨path⟩, stored)
  catch _ => return none

def main (arguments : List String) : IO UInt32 := do
  let here := Path.place [] ⟨(← IO.getEnv "PWD").getD "/"⟩
  let input ← IO.getStdin
  let listed ← if ← input.isTty then pure #[] else readLines input #[]
  let settings := here.ancestors.map fun p => (Place.path (p ++ [Settings.fileName])).text
  let files ← (arguments ++ settings ++ listed.toList).filterMapM (readFile? here)
  let disk : Disk := { files := files.eraseDupsBy fun f g => f.1 == g.1, here }
  let result := Request.outcome disk arguments
  match result with
  | .ok o =>
    for (path, text) in o.writes do IO.FS.writeFile path.text text
    for entry in o.log do IO.eprintln entry.text
    IO.print o.output
  | .error r => IO.eprintln r.message
  return UInt32.ofNat (Request.exitCode result)
