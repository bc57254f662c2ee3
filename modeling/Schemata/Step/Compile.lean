import Schemata.Name.Nearest
import Schemata.Store.Basic

/-!
# Working on the store

A computation on the store ends with a value or a failure, and in either case leaves the store as
far as it came. Types are addressed by their handles, because what is nested where may change while
another type is worked on.

A `Finder` looks types up on behalf of a pass. While a step runs in sequence, a type that the step
has not reached yet is worked on before it is handed out.
-/

namespace Schemata

abbrev Compile := ExceptT Failure (StateM Store)

namespace Compile

/-- The type with a handle. -/
def typeOf (h : Handle) : Compile SchemaType := do
  match (← get).get? h with
  | some t => pure t
  | none => throw { cause := .noType h }

def update (h : Handle) (g : SchemaType → SchemaType) : Compile Unit :=
  modify (·.update h g)

/-- Changes the field of a type at a position. -/
def updateField (h : Handle) (i : Nat) (g : Field → Field) : Compile Unit :=
  update h fun t => { t with fields := t.fields.modify i g }

/-- The field of a type at a position. -/
def fieldOf (h : Handle) (i : Nat) : Compile Field := do
  pure ((← typeOf h).fields[i]?.getD {})

def warn (code type field message : String) : Compile Unit :=
  modify (·.warn code type field message)

def inform (code type field message : String) : Compile Unit :=
  modify (·.inform code type field message)

/-- Puts a place before the trail of a failure. -/
def within (place : String) (x : Compile Unit) : Compile Unit :=
  tryCatch x fun f => throw (f.within place)

end Compile

/-- Looks types up for a pass. -/
structure Finder where
  /-- The first root of a name that satisfies the condition. -/
  find : QName → (SchemaType → Bool) → Compile (Option Handle)
  /-- The first type of a name that is nested in a type. -/
  findInner : Handle → QName → Compile Handle

/-- The conditions by which one of several types of a name is picked, the strongest first: the same
construct, a complex type for an element, a type that is no record, any type. -/
def preferences (tag : Tag) : List (SchemaType → Bool) :=
  [ fun t => t.tag == tag,
    fun t => tag == .element && t.tag == .complexType,
    fun t => !t.isComplex,
    fun _ => true ]

/-- The type of a name that a construct prefers. -/
def Finder.findPreferred (finder : Finder) (q : QName) (tag : Tag) : Compile (Option Handle) :=
  go (preferences tag)
where
  go : List (SchemaType → Bool) → Compile (Option Handle)
    | [] => pure none
    | p :: ps => do
      match ← finder.find q p with
      | some h => pure (some h)
      | none => go ps

/-- The type of a name that a construct prefers, as it is. -/
def Store.preferred? (s : Store) (q : QName) (tag : Tag) : Option SchemaType :=
  (preferences tag).findSome? (s.lookup? q)

/-- A hint at the root of the same namespace whose name is nearest, if one is near. -/
def Store.hint (s : Store) (q : QName) : String :=
  let names := (s.qnames.filter (·.ns == q.ns)).map (·.name)
  match Name.suggest? q.name names with
  | some name => if name = "" then "" else "; did you mean " ++ (q.withName name).text ++ "?"
  | none => ""

/-- The failure for a type that has none of the given name nested in it. -/
def innerNotFound (parent : SchemaType) (q : QName) : Failure :=
  .ofCompile .innerNotFound ("inner of " ++ parent.qname.text) [q.text]

/-- The failure for a type that must exist and does not. -/
def Store.missing (s : Store) (q : QName) (owner : SchemaType) (what : String) : Failure :=
  .ofCompile .missingReference (what ++ " referenced by " ++ owner.qname.text ++ s.hint q) [q.text]

end Schemata
