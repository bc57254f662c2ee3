import Schemata.Command.Run

/-!
# Command line

Reads the files that the arguments name, runs the command and prints its outcome.
-/

namespace Schemata

/-- The contents of a file, if it can be read. -/
def readFile? (path : String) : IO (Option String) := do
  try
    return some (← IO.FS.readFile path)
  catch _ =>
    return none

/-- The files that the arguments may name, with their contents. -/
def readFiles (paths : List String) : IO (List (String × String)) :=
  paths.filterMapM fun path => do return (← readFile? path).map (path, ·)

/-- The paths that options name. -/
def pathsOf (arguments : List String) : List String :=
  match Options.parse arguments with
  | .ok (o, _) => o.configPath :: o.documents
  | .error _ => []

end Schemata

open Schemata in
def main (arguments : List String) : IO UInt32 := do
  let files ← readFiles (pathsOf arguments)
  let result := runCommand (fun path => files.lookup path) arguments
  IO.eprint result.complaint
  result.log.forM fun record => IO.eprintln record.line
  IO.print result.output
  return result.code.toUInt32
