import Schemata.Document.JsonSource
import Schemata.Document.Tree
import Schemata.Document.Types
import Schemata.Document.YamlSource
import Schemata.Json.Writer
import Schemata.Text.Case
import Schemata.Yaml.Reader
import Schemata.Yaml.Writer

/-!
# Documents of types

A document holds root types, in JSON or YAML. Identities are not taken from documents: `decode`
leaves every handle and every reference unbound. Of a text with several documents only the first is
read, and a text without any holds no types.
-/

namespace Schemata

inductive Format where
  | json
  | yaml
deriving DecidableEq, Repr, Inhabited

namespace Format

def text : Format → String
  | json => "json"
  | yaml => "yaml"

def parse? (s : String) : Option Format :=
  [json, yaml].find? (·.text == s)

/-- The end of a file name from its last point on, in lower case. -/
def ending (path : String) : String :=
  let file := (Text.splitOn '/' path.toList).getLastD []
  match Text.cutLast? '.' file with
  | some (_, ending) => Text.lower (String.ofList ending)
  | none => ""

/-- The format that a file name asks for. -/
def ofPath (path : String) : Format :=
  if ending path = "yaml" ∨ ending path = "yml" then yaml else json

end Format

/-- Why a document cannot be read. -/
inductive DocumentError where
  | unreadable (format : Format) (cause : ReadError)
  /-- There is nothing in the place of a root. -/
  | emptyType (position : Nat)
  | unnamedType (position : Nat)
  /-- A part of a type is missing. -/
  | incomplete
  | unknownFormat (name : String)
deriving DecidableEq, Repr

def DocumentError.message : DocumentError → String
  | unreadable format cause => "decode " ++ format.text ++ ": " ++ cause.message
  | emptyType i => "type " ++ toString i ++ " is empty"
  | unnamedType i => "type " ++ toString i ++ " has no name"
  | incomplete => "incomplete type"
  | unknownFormat name => "unknown document format " ++ Text.quote name

namespace Document

/-- The roots for which drafts stand, from a position on, if they are all sound. -/
def sound : Nat → List (Option TypeDraft) → Except DocumentError (List SchemaType)
  | _, [] => .ok []
  | i, none :: _ => .error (.emptyType i)
  | i, some draft :: rest =>
    if draft.type.name = "" then .error (.unnamedType i)
    else match draft.complete? with
      | none => .error .incomplete
      | some t => do
        let ts ← sound (i + 1) rest
        .ok (t :: ts)

/-- A type whose own references are unbound and which has no handle. -/
def unbindOwn (t : SchemaType) : SchemaType :=
  let t := t.mapFieldTypes fun ft => { ft with reference := 0 }
  { t with id := 0, fields := t.fields.map (Field.mapEnums fun v => { v with ref := 0 }) }

/-- A tree without identities. -/
def unbind (t : SchemaType) : SchemaType :=
  t.mapTree unbindOwn

/-- The roots in what has been read of a text in a format. A torn name lacks a part. -/
def rootsOf (format : Format) (read : Except ReadError (List (Option TypeDraft))) :
    Except DocumentError (List SchemaType) :=
  match read with
  | .ok drafts => sound 0 drafts
  | .error .tornName => .error .incomplete
  | .error e => .error (.unreadable format e)

/-- The roots of a text in JSON, as they are. -/
def ofJsonText (s : String) : Except DocumentError (List SchemaType) :=
  rootsOf .json ((JsonReads.run (Reads.documentRoots (s.length + 1)) s).map (·.getD []))

/-- The roots of a text in YAML, as they are. -/
def ofYamlText (s : String) : Except DocumentError (List SchemaType) :=
  match Yaml.parse s with
  | none => .error (.unreadable .yaml .unreadable)
  | some none => .ok []
  | some (some tree) =>
    rootsOf .yaml (YamlReads.run (Reads.documentRoots (s.length + 1)) tree (2 * s.length + 2))

/-- Reads a document. -/
def decode (format : Format) (s : String) : Except DocumentError (List SchemaType) := do
  let types ← match format with
    | .json => ofJsonText s
    | .yaml => ofYamlText s
  .ok (types.map unbind)

/-- Reads a document in the format of a name. -/
def decodeAs (format s : String) : Except DocumentError (List SchemaType) :=
  match Format.parse? format with
  | some format => decode format s
  | none => .error (.unknownFormat format)

/-- Writes a document. In JSON every type says where it stands and how far it has come. -/
def encode (format : Format) (types : List SchemaType) : String :=
  match format with
  | .json => Json.pretty (.object [("types", .list (Tree.schemaTypes { standing := true } types))])
  | .yaml => Yaml.document
      [("types", .list (Tree.schemaTypes { standing := false, order := Yaml.sortKeys } types))]

/-- Writes a document in the format of a name. -/
def encodeAs (format : String) (types : List SchemaType) : Except DocumentError String :=
  match Format.parse? format with
  | some format => .ok (encode format types)
  | none => .error (.unknownFormat format)

end Document

end Schemata
