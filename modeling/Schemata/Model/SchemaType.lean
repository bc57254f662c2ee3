import Schemata.Model.Field
import Schemata.Model.Status
import Schemata.Name.Location

/-!
# Types

A type is a record or an enumeration derived from a schema. Types nest: the inner types of a type
belong to it alone, so a type is a tree. `walk` lists a tree from the top, every type before its
inner types.
-/

namespace Schemata

structure SchemaType where
  id : Handle := 0
  qname : QName := {}
  tag : Tag := .unknown
  location : String := ""
  /-- The construct that the definition stands in. -/
  container : Tag := .unknown
  isAbstract : Bool := false
  mixed : Bool := false
  nillable : Bool := false
  localType : Bool := false
  status : Status := .raw
  defaultValue : String := ""
  fixed : Bool := false
  help : String := ""
  nsMap : List (String × String) := []
  fields : List Field := []
  extensions : List Extension := []
  inner : List SchemaType := []
  /-- The heads of the substitution groups that the type belongs to. -/
  substitutions : List QName := []
  package : String := ""
  moduleName : String := ""
deriving Repr, Inhabited

namespace SchemaType

def name (t : SchemaType) : String :=
  t.qname.name

def ns (t : SchemaType) : String :=
  t.qname.ns

/-- The path of the output module that the type belongs to. -/
def modulePath (t : SchemaType) : String :=
  ModulePath.join [t.package, t.moduleName]

/-- Whether the type has members and nothing but members. -/
def isEnumeration (t : SchemaType) : Bool :=
  !t.fields.isEmpty && t.fields.all Field.isEnumeration

def hasEnumerations (t : SchemaType) : Bool :=
  t.fields.any Field.isEnumeration

def isElement (t : SchemaType) : Bool :=
  t.tag == .element

def isGroup (t : SchemaType) : Bool :=
  t.tag == .group || t.tag == .attributeGroup

/-- Whether the type becomes a record. -/
def isComplex (t : SchemaType) : Bool :=
  match t.tag with
  | .element | .complexType | .bindingMessage | .bindingOperation | .bindingFault => true
  | _ => false

/-- Whether the type only wraps one text value. -/
def isSimple (t : SchemaType) : Bool :=
  match t.fields with
  | [f] => t.extensions.isEmpty && f.isText && !t.mixed
  | _ => false

/-- Whether the last field is an element wildcard. -/
def hasSuffixField (t : SchemaType) : Bool :=
  t.fields.getLast?.any (·.tag == .any)

/-- Whether the type is generated on its own account. -/
def shouldGenerate (t : SchemaType) : Bool :=
  t.isComplex && !t.isGroup

def fieldNamed? (t : SchemaType) (name : String) : Option Field :=
  t.fields.find? (·.name == name)

/-- The references of the type itself: those of its fields, their choices and its bases. -/
def fieldTypes (t : SchemaType) : List FieldType :=
  t.fields.flatMap Field.allTypes ++ t.extensions.map Extension.type

/-- Changes every reference of the type itself. -/
def mapFieldTypes (g : FieldType → FieldType) (t : SchemaType) : SchemaType :=
  { t with
    fields := t.fields.map (Field.mapTypes g)
    extensions := t.extensions.map fun e => { e with type := g e.type } }

/-- The direct inner type of a name. -/
def innerNamed? (t : SchemaType) (q : QName) : Option SchemaType :=
  t.inner.find? (·.qname == q)

mutual

/-- The type and all that is nested in it, every type before its inner types. -/
def walk : SchemaType → List SchemaType
  | t@⟨_, _, _, _, _, _, _, _, _, _, _, _, _, _, _, _, inner, _, _, _⟩ => t :: walkAll inner

def walkAll : List SchemaType → List SchemaType
  | [] => []
  | t :: ts => walk t ++ walkAll ts

end

mutual

/-- Changes the type and all that is nested in it. `g` sees every type with its inner types
already changed. -/
def mapTree (g : SchemaType → SchemaType) : SchemaType → SchemaType
  | t@⟨_, _, _, _, _, _, _, _, _, _, _, _, _, _, _, _, inner, _, _, _⟩ =>
    g { t with inner := mapTrees g inner }

def mapTrees (g : SchemaType → SchemaType) : List SchemaType → List SchemaType
  | [] => []
  | t :: ts => mapTree g t :: mapTrees g ts

end

mutual

/-- Changes the types with a handle, wherever they are nested. -/
def updateAt (h : Handle) (g : SchemaType → SchemaType) : SchemaType → SchemaType
  | t@⟨id, _, _, _, _, _, _, _, _, _, _, _, _, _, _, _, inner, _, _, _⟩ =>
    if id = h then g t else { t with inner := updateAllAt h g inner }

def updateAllAt (h : Handle) (g : SchemaType → SchemaType) : List SchemaType → List SchemaType
  | [] => []
  | t :: ts => updateAt h g t :: updateAllAt h g ts

end

/-- The type with a handle, nested or the type itself. -/
def find? (h : Handle) (t : SchemaType) : Option SchemaType :=
  t.walk.find? (·.id == h)

/-- The first nested type of a name, at any depth. -/
def nested? (t : SchemaType) (q : QName) : Option SchemaType :=
  (walkAll t.inner).find? (·.qname == q)

/-- The names of the types that the type and its inner types depend on, in the order of first
mention; on demand without those of circular references. -/
def dependencies (t : SchemaType) (skipCircular : Bool) : List QName :=
  ((t.walk.flatMap fieldTypes).filter fun ft =>
    ft.isDependency && !(skipCircular && ft.circular)).map (·.qname) |>.eraseDups

/-- The handles of the types that the type and its inner types depend on. -/
def dependencyRefs (t : SchemaType) : List Handle :=
  ((t.walk.flatMap fieldTypes).filter fun ft =>
    ft.isDependency && ft.reference != 0).map (·.reference) |>.eraseDups

mutual

/-- Gives a fresh handle, from `next` on, to every type of the tree whose handle `due` asks for one,
and returns the first handle that is left. -/
def renumber (due : Handle → Bool) : SchemaType → Handle → SchemaType × Handle
  | t@⟨id, _, _, _, _, _, _, _, _, _, _, _, _, _, _, _, inner, _, _, _⟩, next =>
    let (id, next) := if due id then (next, next + 1) else (id, next)
    let (inner, next) := renumberAll due inner next
    ({ t with id, inner }, next)

def renumberAll (due : Handle → Bool) : List SchemaType → Handle → List SchemaType × Handle
  | [], next => ([], next)
  | t :: ts, next =>
    let (t, next) := renumber due t next
    let (ts, next) := renumberAll due ts next
    (t :: ts, next)

end

/-- Gives a fresh handle to every type of the tree that has none. -/
def assignHandles (t : SchemaType) (next : Handle) : SchemaType × Handle :=
  t.renumber (· == 0) next

/-- The handle that a copy has for the handle of an earlier type; of two types with one handle the
later counts. -/
def renamed (old new : List SchemaType) (h : Handle) : Handle :=
  if h = 0 then 0
  else (((old.map (·.id)).zip (new.map (·.id))).reverse.lookup h).getD h

/-- A copy of the tree with fresh handles throughout. References into the tree lead to the copy. -/
def clone (t : SchemaType) (next : Handle) : SchemaType × Handle :=
  let (copy, next) := t.renumber (fun _ => true) next
  let move := renamed t.walk copy.walk
  (copy.mapTree (mapFieldTypes fun ft => { ft with reference := move ft.reference }), next)

end SchemaType

end Schemata
