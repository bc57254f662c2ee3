import Schemata.Command.Log
import Schemata.Command.Options
import Schemata.Command.Report
import Schemata.Config.Reader
import Schemata.Document.Codec

/-!
# The command

Loads the configuration and the documents, analyzes the types, and reports modules and diagnostics.
What is read and printed is left to the caller: `runCommand` asks for the contents of files and
returns what is to be printed.
-/

namespace Schemata

/-- The outcome of a run. -/
structure CommandResult where
  /-- Zero on success, one on failure, two for arguments that are refused. -/
  code : Nat
  output : String := ""
  /-- The complaint about arguments. -/
  complaint : String := ""
  log : List LogRecord := []
deriving Repr, Inhabited

/-- The contents of the file at a path, if there is one. -/
abbrev Files := String → Option String

/-- The complaint about a file that is missing. -/
def missingFile (what path : String) : String :=
  what ++ " " ++ path ++ ": open " ++ path ++ ": no such file or directory"

/-- Loads the configuration at a path; without a path it is the default. -/
def loadConfig (files : Files) (path : String) : Except String Config :=
  if path = "" then .ok {}
  else
    match files path with
    | none => .error (missingFile "failed to read config file" path)
    | some text =>
      match Config.parse text with
      | .ok config => .ok config
      | .error e => .error e.message

/-- Loads the document at a path. Types without a location get the path. -/
def loadDocument (files : Files) (path : String) : Except String (List SchemaType) :=
  match files path with
  | none => .error (missingFile "failed to open document" path)
  | some text =>
    match Document.decode (.ofPath path) text with
    | .ok types => .ok (types.map fun t => if t.location = "" then { t with location := path } else t)
    | .error e => .error ("failed to load document " ++ path ++ ": " ++ e.message)

/-- Loads documents in order. -/
def loadDocuments (files : Files) : List String → Except String (List SchemaType)
  | [] => .ok []
  | path :: rest => do
    let types ← loadDocument files path
    let more ← loadDocuments files rest
    .ok (types ++ more)

/-- The result of an analysis as it is printed. -/
def present (o : Options) (display : Display) (a : Analysis) : CommandResult :=
  let dump := if o.dump && a.failure.isNone then Document.encode .json a.types else ""
  let report := match display with
    | .table => Table.render a
    | .json => Report.render a
  { code := if a.failure.isSome then 1 else 0
    output := dump ++ report
    log := (LogRecord.ofAnalysis a).filter (LogRecord.isShown o.verbose) }

/-- Runs the command with the given arguments. -/
def runCommand (files : Files) (arguments : List String) : CommandResult :=
  match Options.parse arguments with
  | .error e => { code := 2, complaint := e.message }
  | .ok (o, display) =>
    match loadConfig files o.configPath with
    | .error e => { code := 1, log := [.failure "load config" e] }
    | .ok config =>
      match loadDocuments files o.documents with
      | .error e => { code := 1, log := [.failure "load document" e] }
      | .ok types => present o display (analyze config types false)

end Schemata
