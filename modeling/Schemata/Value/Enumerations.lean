import Schemata.Binding.Borrow

/-!
# Enumerations

A simple type that has members keeps nothing but its members, and a record that has members loses
them. A union of enumerations becomes one enumeration with the members of all.
-/

namespace Schemata

open Compile

/-- Parts members from other fields. -/
def SchemaType.sortOutMembers (t : SchemaType) : SchemaType :=
  if t.hasEnumerations && !t.isEnumeration then
    { t with fields := t.fields.filter fun f => f.isEnumeration == !t.isComplex }
  else t

/-- The union field of a type that holds nothing else. -/
def SchemaType.union? (t : SchemaType) : Option Field :=
  match t.fields with
  | [f] => if f.tag = .union ∧ t.extensions.isEmpty then some f else none
  | _ => none

/-- The enumerations that a union refers to by the types at the given positions; nothing as soon as
one of them is none. -/
def unionSources (finder : Finder) (h : Handle) : List Nat → Compile (Option (List Handle))
  | [] => pure (some [])
  | i :: rest => do
    let ft := (← fieldOf h 0).types[i]?.getD {}
    if ft.native then pure none
    else
      let source ← if ft.forward then some <$> finder.findInner h ft.qname
        else finder.find ft.qname fun t => !t.isComplex
      match source with
      | none => pure none
      | some source =>
        if (← typeOf source).isEnumeration then
          pure ((← unionSources finder h rest).map (source :: ·))
        else pure none

/-- The members of several enumerations, of each name the first. -/
def unionMembers (sources : List SchemaType) : List Field :=
  (sources.flatMap (·.fields)).foldl (fun members f =>
    if members.any (·.name == f.name) then members else members ++ [f]) []

/-- Turns a union of enumerations into an enumeration. Inner types that it was made of go with the
union. -/
def flattenUnion (finder : Finder) (h : Handle) : Compile Unit := do
  match (← typeOf h).union? with
  | none => pure ()
  | some union =>
    match ← unionSources finder h (List.range union.types.length) with
    | none | some [] => pure ()
    | some sources =>
      let types ← sources.mapM typeOf
      let gone := (← typeOf h).inner.filter fun t => sources.contains t.id
      update h fun t => { t with
        fields := unionMembers types
        inner := t.inner.filter fun t => !sources.contains t.id }
      modify (·.setAside gone)

/-- Sorts out members and flattens a union. -/
def settleEnumeration (finder : Finder) (h : Handle) : Compile Unit := do
  update h (·.sortOutMembers)
  flattenUnion finder h

end Schemata
