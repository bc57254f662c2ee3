import Schemata.Step.Compile

/-!
# Borrowing inner types

A field that is copied from one type into another takes along copies of the inner types that it
refers to. An inner type that the target already has under the name is used instead.
-/

namespace Schemata

open Compile

/-- The handle of an inner type of `target` that stands for the type of a name nested in
`source`. -/
def borrow (finder : Finder) (source target : Handle) (q : QName) : Compile Handle := do
  match (← typeOf target).innerNamed? q with
  | some t => pure t.id
  | none =>
    let inner ← typeOf (← finder.findInner source q)
    let copy ← modifyGet (·.copy inner)
    update target fun t => { t with inner := t.inner ++ [copy] }
    pure copy.id

/-- Binds a reference that comes from `source` in `target`, if it is a forward reference. -/
def borrowType (finder : Finder) (source target : Handle) (ft : FieldType) : Compile FieldType := do
  if ft.forward then
    pure { ft with reference := ← borrow finder source target ft.qname }
  else pure ft

/-- Binds the forward references of a field that is copied from `source` into `target`. -/
def borrowTypes (finder : Finder) (source target : Handle) (f : Field) : Compile Field :=
  f.mapTypesM (borrowType finder source target)

/-- Takes the direct inner type with a handle out of a type. -/
def dropInner (h inner : Handle) : Compile Unit := do
  let gone := (← typeOf h).inner.filter (·.id == inner)
  update h fun t => { t with inner := t.inner.filter (·.id != inner) }
  modify (·.setAside gone)

end Schemata
