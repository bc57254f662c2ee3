import Schemata.Step.Compile

/-!
# Inner types

Inner enumerations, and on demand all inner types, are promoted: they become roots named after their
parents, and references to them turn from forward references into dependencies.

Of inner types with one name that are left the first stays, empty ones go, and one that is called like
its parent gets a name of its own. Forward references of the parent follow.
-/

namespace Schemata

open Compile

-- ---------------------------------------------------------------------------
-- Promotion
-- ---------------------------------------------------------------------------

/-- Turns a forward reference to a type that is promoted into a dependency on its new name. -/
def FieldType.follow (promoted : SchemaType) (q : QName) (ft : FieldType) : FieldType :=
  if ft.forward &&
      (ft.reference == promoted.id || (ft.reference == 0 && ft.qname == promoted.qname)) then
    { ft with qname := q, forward := false, reference := promoted.id }
  else ft

/-- Names the inner type at a position after its parent and lets all references in the tree
follow. -/
def SchemaType.promoteAt (t : SchemaType) (i : Nat) : SchemaType :=
  match t.inner[i]? with
  | none => t
  | some inner =>
    let q := inner.qname.withName (t.name ++ "_" ++ inner.name)
    let t := t.mapTree (mapFieldTypes (FieldType.follow inner q))
    { t with inner := t.inner.modify i fun u =>
        { u with
          qname := q
          localType := true
          location := if u.location = "" then t.location else u.location } }

/-- The positions of the inner types that are promoted. -/
def SchemaType.promotable (t : SchemaType) (all : Bool) : List Nat :=
  (t.inner.zipIdx.filter fun (u, _) => all || u.isEnumeration).map (·.2)

/-- Promotes inner types: the type without them, and the new roots in order. -/
def SchemaType.promote (t : SchemaType) (all : Bool) : SchemaType × List SchemaType :=
  let chosen := t.promotable all
  let t := chosen.foldl promoteAt t
  let placed := t.inner.zipIdx
  ({ t with inner := (placed.filter fun (_, i) => !chosen.contains i).map (·.1) },
    (placed.filter fun (_, i) => chosen.contains i).map (·.1))

/-- Makes inner types of a type roots. -/
def promoteInner (h : Handle) : Compile Unit := do
  let (t, promoted) := (← typeOf h).promote (← get).config.output.unnestClasses
  update h fun _ => t
  modify (·.insertAll promoted)

-- ---------------------------------------------------------------------------
-- Vacuuming
-- ---------------------------------------------------------------------------

/-- Leads forward references with a handle to another inner type. -/
def SchemaType.redirect (t : SchemaType) (old : Handle) (q : QName) (new : Handle) : SchemaType :=
  t.mapFieldTypes fun ft =>
    if ft.forward && ft.reference == old then { ft with qname := q, reference := new } else ft

/-- Turns forward references with a handle into references to anything. -/
def SchemaType.release (t : SchemaType) (old : Handle) : SchemaType :=
  t.mapFieldTypes fun ft =>
    if ft.forward && ft.reference == old then .ofNative Native.anyType else ft

def SchemaType.isEmpty (t : SchemaType) : Bool :=
  t.fields.isEmpty && t.extensions.isEmpty

/-- What vacuuming has come to: the parent, the inner types that stay, and which of them stands for
a name, latest first. -/
structure Vacuumed where
  parent : SchemaType
  kept : List SchemaType := []
  standing : List SchemaType := []

/-- Keeps an inner type, which from now on stands for its name. -/
def Vacuumed.keep (v : Vacuumed) (inner : SchemaType) : Vacuumed :=
  { v with kept := v.kept ++ [inner], standing := inner :: v.standing }

/-- Settles the fate of one inner type. -/
def Vacuumed.step (v : Vacuumed) (inner : SchemaType) : Vacuumed :=
  match v.standing.find? (·.qname == inner.qname) with
  | some first => { v with parent := v.parent.redirect inner.id first.qname first.id }
  | none =>
    if inner.isEmpty then { v with parent := v.parent.release inner.id }
    else if inner.qname = v.parent.qname then
      let q := inner.qname.withName (inner.name ++ "_Inner")
      { v with parent := v.parent.redirect inner.id q inner.id }.keep { inner with qname := q }
    else v.keep inner

/-- Removes duplicate and empty inner types and renames those that share their parent's name. -/
def SchemaType.vacuum (t : SchemaType) : SchemaType :=
  let v := t.inner.foldl Vacuumed.step { parent := t }
  { v.parent with inner := v.kept }

end Schemata
