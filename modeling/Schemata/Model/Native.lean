import Schemata.Name.QName

/-!
# Native datatypes

The built-in datatypes of the schema language and the kind of value that each stands for. Two
natives of one kind cannot be told apart by their values.
-/

namespace Schemata

inductive ValueKind where
  | unknown
  | string
  | boolean
  | integer
  | float
  | decimal
  | qname
  | binary
  | temporal
  | any
deriving DecidableEq, Repr, Inhabited

def ValueKind.text : ValueKind → String
  | unknown => "unknown"
  | string => "string"
  | boolean => "boolean"
  | integer => "integer"
  | float => "float"
  | decimal => "decimal"
  | qname => "qname"
  | binary => "binary"
  | temporal => "temporal"
  | any => "any"

namespace Native

/-- The namespace of the built-in datatypes. -/
def ns : String := "http://www.w3.org/2001/XMLSchema"

/-- The kind of the built-in datatype of a local name. -/
def kindOfName? : String → Option ValueKind
  | "anyType" | "anySimpleType" | "anyAtomicType" => some .any
  | "string" | "normalizedString" | "token" | "language" | "Name" | "NCName" | "NMTOKEN"
  | "NMTOKENS" | "ID" | "IDREF" | "IDREFS" | "ENTITY" | "ENTITIES" | "anyURI" => some .string
  | "NOTATION" | "QName" => some .qname
  | "boolean" => some .boolean
  | "integer" | "int" | "long" | "short" | "byte" | "nonNegativeInteger" | "nonPositiveInteger"
  | "negativeInteger" | "positiveInteger" | "unsignedInt" | "unsignedLong" | "unsignedShort"
  | "unsignedByte" => some .integer
  | "float" | "double" => some .float
  | "decimal" => some .decimal
  | "base64Binary" | "hexBinary" => some .binary
  | "date" | "dateTime" | "dateTimeStamp" | "time" | "duration" | "dayTimeDuration"
  | "yearMonthDuration" | "gYear" | "gYearMonth" | "gMonth" | "gMonthDay" | "gDay" =>
    some .temporal
  | _ => none

/-- The kind of a built-in datatype. -/
def kind? (q : QName) : Option ValueKind :=
  if q.ns = ns then kindOfName? q.name else none

end Native

namespace QName

/-- Whether the name is that of a built-in datatype. -/
def isNative (q : QName) : Bool :=
  (Native.kind? q).isSome

/-- Whether the name is that of a built-in list of words. -/
def isTokenList (q : QName) : Bool :=
  q.ns == Native.ns && ["NMTOKENS", "IDREFS", "ENTITIES"].contains q.name

end QName

namespace Native

def string : QName := ⟨ns, "string"⟩

def anyType : QName := ⟨ns, "anyType"⟩

end Native

end Schemata
