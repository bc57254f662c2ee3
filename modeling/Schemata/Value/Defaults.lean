import Schemata.Report.Diagnostic
import Schemata.Step.Compile
import Schemata.Value.Lexical

/-!
# Default values

A default has to be a value of one of the field's types. A default of an enumeration is bound to its
member. One that matches no member is dropped, and one that no other type accepts makes the field a
string.
-/

namespace Schemata

open Compile

/-- A field of a type by position, or one of its choices. -/
structure FieldPosition where
  field : Nat
  choice : Option Nat := none

def fieldAt (h : Handle) (position : FieldPosition) : Compile Field := do
  let f ← fieldOf h position.field
  match position.choice with
  | none => pure f
  | some j => pure (f.choices[j]?.getD {})

def updateFieldAt (h : Handle) (position : FieldPosition) (g : Field → Field) : Compile Unit :=
  updateField h position.field fun f =>
    match position.choice with
    | none => g f
    | some j => { f with choices := f.choices.modify j g }

/-- An element that may hold anything and has no default need not be there. -/
def Field.shouldBeOptional (f : Field) : Bool :=
  !f.isAttribute && f.defaultValue == "" && !f.isList && !f.types.isEmpty &&
    f.types.all fun ft => ft.native && ft.qname == Native.anyType

/-- A default applies neither to a list nor to an element that may be absent. -/
def Field.cannotDefault (f : Field) : Bool :=
  f.defaultValue != "" && (f.isList || (!f.isAttribute && !f.isText && f.isOptional))

def Field.withoutDefault (f : Field) : Field :=
  { f with defaultValue := "", fixed := false }

/-- Brings bounds and default of a field in line before its default is checked. -/
def Field.alignDefault (f : Field) : Field :=
  let f := if f.shouldBeOptional then f.setMin 0 else f
  if f.cannotDefault then f.withoutDefault else f

/-- Whether every word of a text is the value of a member. -/
def SchemaType.hasAllTokens (t : SchemaType) (text : String) : Bool :=
  let words := Text.words text
  !words.isEmpty && words.all fun w => t.fields.any (·.defaultValue == w)

/-- Whether one of the field's types takes the default. Types that are no natives take any. -/
def Field.acceptsDefault (f : Field) : Bool :=
  let values := if f.restrictions.tokens then Text.words f.defaultValue else [f.defaultValue]
  f.types.any fun ft => !ft.native || values.all (Lexical.accepts ft.kind)

/-- What looking for a default among enumerations comes to. -/
inductive EnumMatch where
  /-- No type of the field is an enumeration. -/
  | noEnumeration
  /-- There are enumerations, and none has the default. -/
  | noMember
  | found
deriving DecidableEq

/-- Looks for the default of a field in the enumerations among its types at the given positions, and
binds it to a member. -/
def matchEnum (finder : Finder) (h : Handle) (position : FieldPosition) (sofar : EnumMatch) :
    List Nat → Compile EnumMatch
  | [] => pure sofar
  | i :: rest => do
    let ft := (← fieldAt h position).types[i]?.getD {}
    if ft.native then matchEnum finder h position sofar rest
    else
      let source ← if ft.forward then some <$> finder.findInner h ft.qname
        else finder.find ft.qname fun t => ft.reference == 0 || t.id == ft.reference
      match source with
      | none => matchEnum finder h position sofar rest
      | some source =>
        let enum ← typeOf source
        let f ← fieldAt h position
        if !enum.isEnumeration then matchEnum finder h position sofar rest
        else if f.restrictions.tokens then
          if enum.hasAllTokens f.defaultValue then pure .found
          else matchEnum finder h position .noMember rest
        else
          match enum.fields.find? (·.defaultValue == f.defaultValue) with
          | some member =>
            updateFieldAt h position fun f =>
              { f with defaultEnum := some ⟨enum.qname, enum.id, member.name⟩ }
            pure .found
          | none => matchEnum finder h position .noMember rest

/-- Checks the default of a field or choice. -/
def checkDefault (finder : Finder) (h : Handle) (position : FieldPosition) : Compile Unit := do
  if (← fieldAt h position).isEnumeration then pure ()
  else
    updateFieldAt h position Field.alignDefault
    let f ← fieldAt h position
    if f.defaultValue = "" then pure ()
    else
      match ← matchEnum finder h position .noEnumeration (List.range f.types.length) with
      | .found => pure ()
      | .noMember =>
        warn Code.defaultEnumMismatch (← typeOf h).qname.text f.name
          ("default value " ++ Text.quote f.defaultValue ++
            " matches no enumeration member, dropped")
        updateFieldAt h position Field.withoutDefault
      | .noEnumeration =>
        let f ← fieldAt h position
        if !f.acceptsDefault then
          warn Code.defaultTypeMismatch (← typeOf h).qname.text f.name
            ("default value " ++ Text.quote f.defaultValue ++
              " matches none of the field types, reset to " ++ Native.string.text)
          updateFieldAt h position fun f =>
            { f with types := [.ofNative Native.string], restrictions.tokens := false }

/-- Checks the defaults of the choices of a field. -/
def checkChoices (finder : Finder) (h : Handle) (i : Nat) : List Nat → Compile Unit
  | [] => pure ()
  | j :: rest => do
    checkDefault finder h ⟨i, some j⟩
    checkChoices finder h i rest

/-- Checks the defaults of the fields at the given positions and of their choices. -/
def checkFields (finder : Finder) (h : Handle) : List Nat → Compile Unit
  | [] => pure ()
  | i :: rest => do
    checkDefault finder h ⟨i, none⟩
    checkChoices finder h i (List.range (← fieldOf h i).choices.length)
    checkFields finder h rest

/-- Checks every default of a type. -/
def checkDefaults (finder : Finder) (h : Handle) : Compile Unit := do
  checkFields finder h (List.range (← typeOf h).fields.length)

end Schemata
