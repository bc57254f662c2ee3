import Schemata.Model.Native
import Schemata.Model.Restrictions
import Schemata.Model.Tag

/-!
# Fields and references

A field is a member of a type. It refers to the types of its values: to natives, to types nested in
the declaring type (forward) or to other types (dependencies). A compound field holds its
alternatives as choices.
-/

namespace Schemata

/-- The identity of a type; zero means unbound. -/
abbrev Handle := Int

/-- A reference to a native datatype, a nested type or another type. -/
structure FieldType where
  qname : QName := {}
  reference : Handle := 0
  native : Bool := false
  forward : Bool := false
  circular : Bool := false
  substituted : Bool := false
deriving DecidableEq, Repr, Inhabited

namespace FieldType

def ofNative (q : QName) : FieldType :=
  { qname := q, native := true }

/-- An unbound reference to a type elsewhere. -/
def ofDependency (q : QName) : FieldType :=
  { qname := q }

/-- A reference to a nested type. -/
def ofForward (q : QName) (h : Handle) : FieldType :=
  { qname := q, forward := true, reference := h }

def isDependency (t : FieldType) : Bool :=
  !t.native && !t.forward

/-- The kind of value, unknown unless native. -/
def kind (t : FieldType) : ValueKind :=
  if t.native then (Native.kind? t.qname).getD .unknown else .unknown

/-- A reference to a name, by whatever kind of reference. -/
def names (q : QName) (t : FieldType) : Bool :=
  t.qname == q

end FieldType

/-- A base of a type. -/
structure Extension where
  tag : Tag := .unknown
  type : FieldType := {}
  restrictions : Restrictions := {}
deriving DecidableEq, Repr, Inhabited

/-- A default that is a member of an enumeration. -/
structure EnumValue where
  type : QName := {}
  ref : Handle := 0
  member : String := ""
deriving DecidableEq, Repr, Inhabited

structure Field where
  tag : Tag := .unknown
  name : String := ""
  /-- The name before any renaming. -/
  localName : String := ""
  index : Int := 0
  types : List FieldType := []
  /-- The alternatives of a compound field. -/
  choices : List Field := []
  ns : String := ""
  restrictions : Restrictions := {}
  defaultValue : String := ""
  fixed : Bool := false
  mixed : Bool := false
  help : String := ""
  /-- The name of the element that wraps a list. -/
  wrapper : String := ""
  substitutionGroup : String := ""
  defaultEnum : Option EnumValue := none
deriving Repr, Inhabited

namespace Field

def isAttribute (f : Field) : Bool :=
  f.tag == .attr || f.tag == .anyAttribute

def isEnumeration (f : Field) : Bool :=
  f.tag == .enumeration

def isWildcard (f : Field) : Bool :=
  f.tag == .any || f.tag == .anyAttribute

def isGroup (f : Field) : Bool :=
  f.tag == .group || f.tag == .attributeGroup

def isChoice (f : Field) : Bool :=
  f.tag == .choice

def isElement (f : Field) : Bool :=
  f.tag == .element

/-- Whether the field holds the simple content of its type. -/
def isText (f : Field) : Bool :=
  f.tag == .extension || f.tag == .restriction || f.tag == .union || f.tag == .list

def isList (f : Field) : Bool :=
  f.restrictions.isList

def isOptional (f : Field) : Bool :=
  f.restrictions.isOptional

def isProhibited (f : Field) : Bool :=
  f.restrictions.isProhibited

def isNillable (f : Field) : Bool :=
  f.restrictions.nillable

/-- Whether one of the field's own types has the name. -/
def hasType (f : Field) (q : QName) : Bool :=
  f.types.any (FieldType.names q)

def setMin (f : Field) (n : Int) : Field :=
  { f with restrictions := f.restrictions.setMin n }

def setMax (f : Field) (n : Int) : Field :=
  { f with restrictions := f.restrictions.setMax n }

/-- Takes over the facets of other restrictions. -/
def mergeFacets (f : Field) (r : Restrictions) : Field :=
  { f with restrictions := f.restrictions.merge r }

/-- The name before any renaming. -/
def declaredName (f : Field) : String :=
  if f.localName = "" then f.name else f.localName

/-- The field under another name; the first name it had is kept. -/
def rename (f : Field) (name : String) : Field :=
  { f with name, localName := f.declaredName }

mutual

/-- The field's types, followed by those of its choices. -/
def allTypes : Field → List FieldType
  | ⟨_, _, _, _, types, choices, _, _, _, _, _, _, _, _, _⟩ => types ++ allTypesOf choices

def allTypesOf : List Field → List FieldType
  | [] => []
  | f :: fs => allTypes f ++ allTypesOf fs

end

mutual

/-- Changes every type of the field and of its choices. -/
def mapTypes (g : FieldType → FieldType) : Field → Field
  | ⟨tag, name, localName, index, types, choices, ns, restrictions, defaultValue, fixed, mixed,
      help, wrapper, substitutionGroup, defaultEnum⟩ =>
    ⟨tag, name, localName, index, types.map g, mapTypesOf g choices, ns, restrictions,
      defaultValue, fixed, mixed, help, wrapper, substitutionGroup, defaultEnum⟩

def mapTypesOf (g : FieldType → FieldType) : List Field → List Field
  | [] => []
  | f :: fs => mapTypes g f :: mapTypesOf g fs

end

mutual

/-- Changes every type of the field and then of its choices, in order, by an action. -/
def mapTypesM {m : Type → Type} [Monad m] (g : FieldType → m FieldType) : Field → m Field
  | ⟨tag, name, localName, index, types, choices, ns, restrictions, defaultValue, fixed, mixed,
      help, wrapper, substitutionGroup, defaultEnum⟩ => do
    let types ← types.mapM g
    let choices ← mapTypesOfM g choices
    pure ⟨tag, name, localName, index, types, choices, ns, restrictions, defaultValue, fixed, mixed,
      help, wrapper, substitutionGroup, defaultEnum⟩

def mapTypesOfM {m : Type → Type} [Monad m] (g : FieldType → m FieldType) :
    List Field → m (List Field)
  | [] => pure []
  | f :: fs => do
    let f ← mapTypesM g f
    let fs ← mapTypesOfM g fs
    pure (f :: fs)

end

mutual

/-- Changes the enumeration default of the field and of its choices. -/
def mapEnums (g : EnumValue → EnumValue) : Field → Field
  | ⟨tag, name, localName, index, types, choices, ns, restrictions, defaultValue, fixed, mixed,
      help, wrapper, substitutionGroup, defaultEnum⟩ =>
    ⟨tag, name, localName, index, types, mapEnumsOf g choices, ns, restrictions,
      defaultValue, fixed, mixed, help, wrapper, substitutionGroup, defaultEnum.map g⟩

def mapEnumsOf (g : EnumValue → EnumValue) : List Field → List Field
  | [] => []
  | f :: fs => mapEnums g f :: mapEnumsOf g fs

end

end Field

end Schemata
