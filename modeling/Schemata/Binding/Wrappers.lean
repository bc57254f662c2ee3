import Schemata.Binding.Borrow
import Schemata.Report.Diagnostic

/-!
# Wrapped lists

An element whose type holds nothing but one repeating element wraps a list. When lists are unwrapped,
the field becomes the repeating element itself and remembers the name of the wrapper.
-/

namespace Schemata

open Compile

/-- The repeating element of a type that holds nothing else. -/
def SchemaType.wrapped? (t : SchemaType) : Option Field :=
  match t.fields with
  | [item] =>
    if t.isComplex && !t.mixed && t.extensions.isEmpty && item.isElement && item.isList &&
        item.restrictions.choice == 0 then some item
    else none
  | _ => none

/-- The reference of a field that may lead to a wrapper. -/
def Field.wrapperRef? (f : Field) : Option FieldType :=
  match f.types with
  | [ft] =>
    if f.isElement && !f.isList && f.wrapper == "" && !ft.native && ft.reference != 0 then some ft
    else none
  | _ => none

/-- The field that stands for the items of a wrapped list. -/
def Field.unwrap (f item : Field) : Field :=
  let bounded := { f.restrictions with
    minOccurs := item.restrictions.minOccurs
    maxOccurs := item.restrictions.maxOccurs }
  { f with
    wrapper := f.name
    name := item.name
    localName := item.name
    ns := item.ns
    types := item.types
    restrictions := bounded.merge item.restrictions }

/-- Unwraps the field at a position, whose type is a wrapper around an item. -/
def unwrapField (finder : Finder) (h : Handle) (i : Nat) (wrapper : Handle) (item : Field) :
    Compile Unit := do
  let item ← borrowTypes finder wrapper h item
  let ref := (← fieldOf h i).types.headD {}
  updateField h i (·.unwrap item)
  if ref.forward then dropInner h ref.reference
  let f ← fieldOf h i
  inform Code.unwrappedList (← typeOf h).qname.text f.name
    ("unwrapped list wrapper " ++ f.wrapper)

/-- Unwraps the fields at the given positions, where they wrap lists. -/
def unwrapFields (finder : Finder) (h : Handle) : List Nat → Compile Unit
  | [] => pure ()
  | i :: rest => do
    match (← fieldOf h i).wrapperRef? with
    | none => pure ()
    | some ft =>
      let source ← if ft.forward then pure (((← typeOf h).innerNamed? ft.qname).map (·.id))
        else finder.find ft.qname fun t => t.id == ft.reference
      match source with
      | none => pure ()
      | some source =>
        if source ≠ h then
          match (← typeOf source).wrapped? with
          | some item => unwrapField finder h i source item
          | none => pure ()
    unwrapFields finder h rest

/-- Unwraps the lists among the fields of a type, if lists are to be unwrapped. -/
def unwrapLists (finder : Finder) (h : Handle) : Compile Unit := do
  if (← get).config.output.wrappedLists = .unwrap then
    unwrapFields finder h (List.range (← typeOf h).fields.length)

end Schemata
