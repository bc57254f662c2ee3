import Schemata.Text.Number
import Schemata.Text.Split

/-!
# Options

The options of the command line come before the documents. An option has one dash or two, and its
value follows a sign of equality or is the next argument; a switch needs no value. Two dashes alone
end the options.
-/

namespace Schemata

/-- How results are printed. -/
inductive Display where
  | table
  | json
deriving DecidableEq, Repr, Inhabited

structure Options where
  configPath : String := ""
  format : String := "table"
  dump : Bool := false
  verbose : Bool := false
  documents : List String := []
deriving DecidableEq, Repr, Inhabited

/-- Why the arguments are refused. -/
inductive UsageError where
  /-- Help was asked for. -/
  | help
  | badSyntax (argument : String)
  | unknown (name : String)
  | noValue (name : String)
  | badBoolean (name value : String)
  | noDocuments
  | unknownFormat (format : String)
deriving DecidableEq, Repr

namespace UsageError

/-- What the options are. -/
def usage : String :=
  "usage: schemac [-config file] [-format table|json] [-dump] [-v] document...\n" ++
  "  -config string\n    \tpath to a YAML config file\n" ++
  "  -dump\n    \tdump the processed types\n" ++
  "  -format string\n    \toutput format: table or json (default \"table\")\n" ++
  "  -v\tlog pipeline stages\n"

def message : UsageError → String
  | help | noDocuments => usage
  | badSyntax argument => "bad flag syntax: " ++ argument ++ "\n" ++ usage
  | unknown name => "flag provided but not defined: -" ++ name ++ "\n" ++ usage
  | noValue name => "flag needs an argument: -" ++ name ++ "\n" ++ usage
  | badBoolean name value =>
    "invalid boolean value " ++ Text.quote value ++ " for -" ++ name ++ ": parse error\n" ++ usage
  | unknownFormat format => "unknown format " ++ Text.quote format ++ "\n"

end UsageError

namespace Options

/-- The name of an option behind its dashes, and its value if it is given in the same argument. -/
def splitValue (body : List Char) : String × Option String :=
  match Text.cut? '=' body with
  | some (name, value) => (String.ofList name, some (String.ofList value))
  | none => (String.ofList body, none)

/-- Sets a switch. -/
def setSwitch (name : String) (value : Option String) (set : Bool → Options) :
    Except UsageError Options :=
  match value with
  | none => .ok (set true)
  | some value =>
    match Text.readBool value with
    | .ok b => .ok (set b)
    | .error _ => .error (.badBoolean name value)

/-- Reads arguments from the left. -/
def parseFrom (o : Options) : List String → Except UsageError Options
  | [] => .ok o
  | argument :: rest =>
    match argument.toList with
    | ['-', '-'] => .ok { o with documents := rest }
    | '-' :: c :: cs =>
      let body := if c == '-' then cs else c :: cs
      if body.head?.all fun x => x == '-' || x == '=' then .error (.badSyntax argument)
      else
        match splitValue body with
        | ("config", some value) => parseFrom { o with configPath := value } rest
        | ("format", some value) => parseFrom { o with format := value } rest
        | ("config", none) =>
          match rest with
          | value :: rest => parseFrom { o with configPath := value } rest
          | [] => .error (.noValue "config")
        | ("format", none) =>
          match rest with
          | value :: rest => parseFrom { o with format := value } rest
          | [] => .error (.noValue "format")
        | ("dump", value) => do
          let o ← setSwitch "dump" value fun b => { o with dump := b }
          parseFrom o rest
        | ("v", value) => do
          let o ← setSwitch "v" value fun b => { o with verbose := b }
          parseFrom o rest
        | (name, _) => .error (if name = "h" ∨ name = "help" then .help else .unknown name)
    | _ => .ok { o with documents := argument :: rest }

/-- Reads the arguments of the command line. -/
def parse (arguments : List String) : Except UsageError (Options × Display) := do
  let o ← parseFrom {} arguments
  if o.documents.isEmpty then .error .noDocuments
  else if o.format = "table" then .ok (o, .table)
  else if o.format = "json" then .ok (o, .json)
  else .error (.unknownFormat o.format)

end Options

end Schemata
