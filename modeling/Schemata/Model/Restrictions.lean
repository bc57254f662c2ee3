import Schemata.Text.Number

/-!
# Restrictions

Occurrence bounds, structural markers and value facets of a field or of a base. What is not set does
not restrict, and bounds that are not set are one. Bounds are signed integers of 64 bits; their products
and sums stop at `unbounded`.
-/

namespace Schemata

namespace Occurs

/-- Stands for no upper bound. -/
def unbounded : Int := 2147483647

/-- The product of two bounds, at most `unbounded`. -/
def mul (a b : Int) : Int :=
  if a = 0 ∨ b = 0 then 0
  else if a ≥ unbounded ∨ b ≥ unbounded ∨ a > Int.tdiv unbounded b then unbounded
  else Word64.wrap (a * b)

/-- The sum of two bounds, at most `unbounded`. -/
def add (a b : Int) : Int :=
  if a ≥ Word64.wrap (unbounded - b) then unbounded else Word64.wrap (a + b)

end Occurs

/-- The particle of the content model that an entry of a path stands for. -/
inductive Particle where
  | sequence
  | choice
  | group
  | element
  /-- Any other text. -/
  | other (text : String)
deriving DecidableEq, Repr, Inhabited

namespace Particle

def text : Particle → String
  | sequence => "s"
  | choice => "c"
  | group => "g"
  | element => "e"
  | other s => s

def ofText (s : String) : Particle :=
  match s with
  | "s" => sequence
  | "c" => choice
  | "g" => group
  | "e" => element
  | s => other s

end Particle

/-- One step of the way to a field through the content model, from the outside in. -/
structure PathEntry where
  kind : Particle := .other ""
  id : Int := 0
  min : Int := 0
  max : Int := 0
deriving DecidableEq, Repr, Inhabited

structure Restrictions where
  minOccurs : Option Int := none
  maxOccurs : Option Int := none
  minExclusive : Option String := none
  minInclusive : Option String := none
  maxExclusive : Option String := none
  maxInclusive : Option String := none
  minLength : Option Int := none
  maxLength : Option Int := none
  length : Option Int := none
  totalDigits : Option Int := none
  fractionDigits : Option Int := none
  whiteSpace : Option String := none
  pattern : Option String := none
  explicitTimezone : Option String := none
  processContents : String := ""
  nillable : Bool := false
  tokens : Bool := false
  /-- The marker of the enclosing sequence, zero for none. -/
  sequence : Int := 0
  /-- The marker of the enclosing choice, zero for none; negative for repeated elements. -/
  choice : Int := 0
  /-- The marker of the enclosing group, zero for none. -/
  group : Int := 0
  path : List PathEntry := []
deriving DecidableEq, Repr, Inhabited

namespace Restrictions

/-- Restrictions with the given bounds and nothing else. -/
def occurs (min max : Int) : Restrictions :=
  { minOccurs := some min, maxOccurs := some max }

def min (r : Restrictions) : Int :=
  r.minOccurs.getD 1

def max (r : Restrictions) : Int :=
  r.maxOccurs.getD 1

def setMin (r : Restrictions) (n : Int) : Restrictions :=
  { r with minOccurs := some n }

/-- Sets the upper bound; what is negative or beyond `unbounded` is `unbounded`. -/
def setMax (r : Restrictions) (n : Int) : Restrictions :=
  { r with maxOccurs := some (if n > Occurs.unbounded ∨ n < 0 then Occurs.unbounded else n) }

/-- What is restricted may repeat. -/
def isList (r : Restrictions) : Bool :=
  r.max > 1

/-- What is restricted may be absent. -/
def isOptional (r : Restrictions) : Bool :=
  r.min == 0

/-- What is restricted must be absent. -/
def isProhibited (r : Restrictions) : Bool :=
  r.maxOccurs == some 0

/-- Takes over every facet that `source` sets. Bounds, markers and path stay. -/
def merge (r source : Restrictions) : Restrictions :=
  { r with
    minLength := source.minLength.or r.minLength
    maxLength := source.maxLength.or r.maxLength
    length := source.length.or r.length
    totalDigits := source.totalDigits.or r.totalDigits
    fractionDigits := source.fractionDigits.or r.fractionDigits
    minExclusive := source.minExclusive.or r.minExclusive
    minInclusive := source.minInclusive.or r.minInclusive
    maxExclusive := source.maxExclusive.or r.maxExclusive
    maxInclusive := source.maxInclusive.or r.maxInclusive
    whiteSpace := source.whiteSpace.or r.whiteSpace
    pattern := source.pattern.or r.pattern
    explicitTimezone := source.explicitTimezone.or r.explicitTimezone
    processContents := if source.processContents = "" then r.processContents
      else source.processContents
    nillable := r.nillable || source.nillable
    tokens := r.tokens || source.tokens }

/-- The same restrictions without bounds. -/
def withoutBounds (r : Restrictions) : Restrictions :=
  { r with minOccurs := none, maxOccurs := none }

end Restrictions

end Schemata
