import Schemata.Model.Restrictions
import Schemata.Text.Number

/-!
# Facets by name

Sets a facet of restrictions from its name in the schema language and its lexical value. A truth
value that cannot be read leaves the facet false; any other value that cannot be read leaves the
restrictions as they are.
-/

namespace Schemata

inductive Facet where
  | minOccurs
  | maxOccurs
  | minExclusive
  | minInclusive
  | maxExclusive
  | maxInclusive
  | minLength
  | maxLength
  | length
  | totalDigits
  | fractionDigits
  | whiteSpace
  | pattern
  | explicitTimezone
  | processContents
  | nillable
  | tokens
deriving DecidableEq, Repr

namespace Facet

def all : List Facet :=
  [minOccurs, maxOccurs, minExclusive, minInclusive, maxExclusive, maxInclusive, minLength,
    maxLength, length, totalDigits, fractionDigits, whiteSpace, pattern, explicitTimezone,
    processContents, nillable, tokens]

def name : Facet → String
  | minOccurs => "minOccurs"
  | maxOccurs => "maxOccurs"
  | minExclusive => "minExclusive"
  | minInclusive => "minInclusive"
  | maxExclusive => "maxExclusive"
  | maxInclusive => "maxInclusive"
  | minLength => "minLength"
  | maxLength => "maxLength"
  | length => "length"
  | totalDigits => "totalDigits"
  | fractionDigits => "fractionDigits"
  | whiteSpace => "whiteSpace"
  | pattern => "pattern"
  | explicitTimezone => "explicitTimezone"
  | processContents => "processContents"
  | nillable => "nillable"
  | tokens => "tokens"

def ofName? (s : String) : Option Facet :=
  all.find? (·.name == s)

end Facet

/-- Why a facet cannot be set. -/
inductive FacetError where
  | unknown (name : String)
  | badInteger (facet : Facet) (value : String) (cause : Text.LexError)
  | badBoolean (facet : Facet) (value : String) (cause : Text.LexError)
deriving DecidableEq, Repr

namespace FacetError

/-- The complaint of a reader about a text. -/
def reader (name value : String) (cause : Text.LexError) : String :=
  "strconv." ++ name ++ ": parsing " ++ Text.quote value ++ ": " ++ cause.message

def invalid (facet : Facet) (value reason : String) : String :=
  "invalid " ++ facet.name ++ " facet value " ++ Text.quote value ++ ": " ++ reason

def message : FacetError → String
  | unknown name => "unknown facet: " ++ Text.quote name
  | badInteger facet value cause => invalid facet value (reader "Atoi" value cause)
  | badBoolean facet value cause => invalid facet value (reader "ParseBool" value cause)

end FacetError

namespace Restrictions

/-- The restrictions after setting a facet, and the complaint if it cannot be set. -/
abbrev Outcome := Restrictions × Option FacetError

/-- Sets an integer facet. -/
def setInteger (r : Restrictions) (facet : Facet) (value : String) (set : Int → Restrictions) :
    Outcome :=
  match Text.readInt value with
  | .ok n => (set n, none)
  | .error cause => (r, some (.badInteger facet value cause))

/-- Sets an occurrence bound, which may also be `unbounded`. -/
def setBound (r : Restrictions) (facet : Facet) (value : String) (set : Int → Restrictions) :
    Outcome :=
  if value = "unbounded" then (set Occurs.unbounded, none) else r.setInteger facet value set

/-- Sets a truth value, false when it cannot be read. -/
def setBoolean (facet : Facet) (value : String) (set : Bool → Restrictions) : Outcome :=
  match Text.readBool value with
  | .ok b => (set b, none)
  | .error cause => (set false, some (.badBoolean facet value cause))

/-- Sets a facet from its lexical value. Several patterns are alternatives. -/
def setFacet (r : Restrictions) (facet : Facet) (value : String) : Outcome :=
  match facet with
  | .minOccurs => r.setBound facet value fun n => { r with minOccurs := some n }
  | .maxOccurs => r.setBound facet value fun n => { r with maxOccurs := some n }
  | .minExclusive => ({ r with minExclusive := some value }, none)
  | .minInclusive => ({ r with minInclusive := some value }, none)
  | .maxExclusive => ({ r with maxExclusive := some value }, none)
  | .maxInclusive => ({ r with maxInclusive := some value }, none)
  | .minLength => r.setInteger facet value fun n => { r with minLength := some n }
  | .maxLength => r.setInteger facet value fun n => { r with maxLength := some n }
  | .length => r.setInteger facet value fun n => { r with length := some n }
  | .totalDigits => r.setInteger facet value fun n => { r with totalDigits := some n }
  | .fractionDigits => r.setInteger facet value fun n => { r with fractionDigits := some n }
  | .whiteSpace => ({ r with whiteSpace := some value }, none)
  | .pattern =>
    let joined := match r.pattern with
      | some earlier => earlier ++ "|" ++ value
      | none => value
    ({ r with pattern := some joined }, none)
  | .explicitTimezone => ({ r with explicitTimezone := some value }, none)
  | .processContents => ({ r with processContents := value }, none)
  | .nillable => setBoolean facet value fun b => { r with nillable := b }
  | .tokens => setBoolean facet value fun b => { r with tokens := b }

/-- Sets the facet of a name. -/
def setFacetNamed (r : Restrictions) (name value : String) : Outcome :=
  match Facet.ofName? name with
  | some facet => r.setFacet facet value
  | none => (r, some (.unknown name))

end Restrictions

end Schemata
