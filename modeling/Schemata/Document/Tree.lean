import Schemata.Json.Value
import Schemata.Model.SchemaType

/-!
# Types as values

The records of types as values with ordered members. Members that say nothing are left out, except
those that every record of a kind has.
-/

namespace Schemata.Tree

abbrev Members := List (String × Json)

def flag (key : String) (b : Bool) : Members :=
  if b then [(key, .bool true)] else []

def number (key : String) (n : Int) : Members :=
  if n = 0 then [] else [(key, .int n)]

def word (key : String) (s : String) : Members :=
  if s = "" then [] else [(key, .text s)]

def numberIf (key : String) (n : Option Int) : Members :=
  (n.map fun n => (key, Json.int n)).toList

def wordIf (key : String) (s : Option String) : Members :=
  (s.map fun s => (key, Json.text s)).toList

def many (key : String) (items : List Json) : Members :=
  if items.isEmpty then [] else [(key, .list items)]

def fieldType (t : FieldType) : Json :=
  .object ([("qname", .text t.qname.text)] ++
    number "reference" t.reference ++ flag "native" t.native ++ flag "forward" t.forward ++
    flag "circular" t.circular ++ flag "substituted" t.substituted)

def pathEntry (p : PathEntry) : Json :=
  .object [("kind", .text p.kind.text), ("id", .int p.id), ("min", .int p.min), ("max", .int p.max)]

def restrictions (r : Restrictions) : Json :=
  .object (numberIf "minOccurs" r.minOccurs ++ numberIf "maxOccurs" r.maxOccurs ++
    wordIf "minExclusive" r.minExclusive ++ wordIf "minInclusive" r.minInclusive ++
    wordIf "maxExclusive" r.maxExclusive ++ wordIf "maxInclusive" r.maxInclusive ++
    numberIf "minLength" r.minLength ++ numberIf "maxLength" r.maxLength ++
    numberIf "length" r.length ++ numberIf "totalDigits" r.totalDigits ++
    numberIf "fractionDigits" r.fractionDigits ++ wordIf "whiteSpace" r.whiteSpace ++
    wordIf "pattern" r.pattern ++ wordIf "explicitTimezone" r.explicitTimezone ++
    word "processContents" r.processContents ++ flag "nillable" r.nillable ++
    flag "tokens" r.tokens ++ number "sequence" r.sequence ++ number "choice" r.choice ++
    number "group" r.group ++ many "path" (r.path.map pathEntry))

def base (e : Extension) : Json :=
  .object [("tag", .text e.tag.text), ("type", fieldType e.type),
    ("restrictions", restrictions e.restrictions)]

def enumValue (v : EnumValue) : Json :=
  .object [("type", .text v.type.text), ("ref", .int v.ref), ("member", .text v.member)]

mutual

def field : Field → Json
  | ⟨tag, name, localName, index, types, choices, ns, r, defaultValue, fixed, mixed, help, wrapper,
      substitutionGroup, defaultEnum⟩ =>
    .object ([("tag", .text tag.text), ("name", .text name)] ++ word "localName" localName ++
      [("index", .int index)] ++ many "types" (types.map fieldType) ++
      many "choices" (fields choices) ++ word "namespace" ns ++
      [("restrictions", restrictions r)] ++ word "default" defaultValue ++ flag "fixed" fixed ++
      flag "mixed" mixed ++ word "help" help ++ word "wrapper" wrapper ++
      word "substitutionGroup" substitutionGroup ++
      (defaultEnum.map fun v => ("defaultEnum", enumValue v)).toList)

def fields : List Field → List Json
  | [] => []
  | f :: fs => field f :: fields fs

end

/-- What is said about a type even if it says nothing. -/
structure Emphasis where
  /-- The construct that the type stands in, and its progress. -/
  standing : Bool
  /-- The order of the abbreviations of namespaces. -/
  order : List (String × String) → List (String × String) := id

/-- Where a type stands. -/
def container (e : Emphasis) (tag : Tag) : Members :=
  if e.standing || tag != .unknown then [("container", .text tag.text)] else []

/-- How far a type has come. -/
def status (e : Emphasis) (s : Status) : Members :=
  if e.standing || s != .raw then [("status", .text s.text)] else []

def nsMap (e : Emphasis) (pairs : List (String × String)) : Members :=
  if pairs.isEmpty then []
  else [("nsMap", .object ((e.order pairs).map fun (key, ns) => (key, .text ns)))]

mutual

def schemaType (e : Emphasis) : SchemaType → Json
  | ⟨id, qname, tag, location, container, isAbstract, mixed, nillable, localType, status,
      defaultValue, fixed, help, nsMap, fields, extensions, inner, substitutions, package,
      moduleName⟩ =>
    .object (number "id" id ++ [("qname", .text qname.text), ("tag", .text tag.text)] ++
      word "location" location ++ Tree.container e container ++ flag "abstract" isAbstract ++
      flag "mixed" mixed ++ flag "nillable" nillable ++ flag "localType" localType ++
      Tree.status e status ++ word "default" defaultValue ++ flag "fixed" fixed ++
      word "help" help ++ Tree.nsMap e nsMap ++ many "fields" (Tree.fields fields) ++
      many "extensions" (extensions.map Tree.base) ++ many "inner" (schemaTypes e inner) ++
      many "substitutions" (substitutions.map fun q => .text q.text) ++ word "package" package ++
      word "module" moduleName)

def schemaTypes (e : Emphasis) : List SchemaType → List Json
  | [] => []
  | t :: ts => schemaType e t :: schemaTypes e ts

end

end Schemata.Tree
