import Schemata.Binding.Borrow
import Schemata.Lists.Groups
import Schemata.Report.Diagnostic

/-!
# Bases

For every base of a type it is decided whether the base is dropped, copied into the type or kept as
inheritance. A base whose own bases lead back to the type is dropped. A record is kept when the type
shares no field with it, dropped when the type restates all its fields, and copied when they overlap
in part or when its layout cannot be inherited; what is no record is always dissolved into the type.
-/

namespace Schemata

open Compile

/-- The name of the field that holds the text of a type. -/
def valueFieldName : String := "value"

/-- A new field for the text of a type that a base gives it. -/
def SchemaType.valueField (t : SchemaType) (ext : Extension) (ft : FieldType) : Field :=
  { tag := if ext.tag = .extension then .extension else .restriction
    name := valueFieldName
    types := [ft]
    restrictions := ext.restrictions.withoutBounds
    defaultValue := t.defaultValue
    fixed := t.fixed }

/-- Adds a type to the text field of a type, or makes it a new first field. `g` finishes the
field. -/
def SchemaType.addValue (t : SchemaType) (ext : Extension) (ft : FieldType) (g : Field → Field) :
    SchemaType :=
  match t.fields.findIdx? Field.isText with
  | some i =>
    let extend := fun (f : Field) =>
      let types := if f.hasType ft.qname then f.types else f.types ++ [ft]
      g { f with types, restrictions := f.restrictions.merge ext.restrictions }
    { t with fields := t.fields.modify i extend }
  | none => { t with fields := g (t.valueField ext ft) :: t.fields }

/-- Gives every member of an enumeration one type. -/
def SchemaType.retypeMembers (t : SchemaType) (ft : FieldType) : SchemaType :=
  { t with fields := t.fields.map fun f => { f with types := [ft] } }

/-- Takes over the members of an enumeration whose names the type does not have. -/
def SchemaType.addMembers (t source : SchemaType) : SchemaType :=
  let names := t.fields.map (·.name)
  { t with fields := t.fields ++
      source.fields.filter fun f => f.isEnumeration && !names.contains f.name }

/-- Dissolves a native base. -/
def SchemaType.dissolveNative (t : SchemaType) (ext : Extension) : SchemaType :=
  if t.isEnumeration then t.retypeMembers ext.type else t.addValue ext ext.type fun f => f

/-- Gives the members without types those of the first member of another enumeration. -/
def SchemaType.completeMembers (t source : SchemaType) : SchemaType :=
  match source.fields with
  | [] => t
  | first :: _ =>
    { t with fields := t.fields.map fun f =>
        if f.types.isEmpty then { f with types := first.types } else f }

/-- Dissolves an enumeration that is a base. -/
def SchemaType.dissolveEnumeration (t source : SchemaType) (ext : Extension) : SchemaType :=
  if t.isEnumeration then
    (if ext.tag = .extension then t.addMembers source else t).completeMembers source
  else if t.fields.isEmpty then t.addMembers source
  else
    let ft := { FieldType.ofDependency source.qname with reference := source.id }
    t.addValue ext ft fun f =>
      match source.fields with
      | [only] =>
        if ext.tag = .restriction then { f with defaultValue := only.defaultValue, fixed := true }
        else f
      | _ => f

/-- The position of the last field of a name. -/
def SchemaType.lastPosition? (t : SchemaType) (name : String) : Option Nat :=
  ((t.fields.zipIdx.filter fun (f, _) => f.name == name).map (·.2)).getLast?

/-- Whether positions go back somewhere. -/
def goesBack : List Nat → Bool
  | i :: j :: rest => j < i || goesBack (j :: rest)
  | _ => false

/-- Whether the fields that a type shares with its base come in another order. -/
def SchemaType.outOfOrder (t base : SchemaType) : Bool :=
  goesBack (t.fields.filterMap fun f => base.lastPosition? f.name)

/-- Whether the layout of a base cannot be inherited. -/
def SchemaType.mustCopy (t base : SchemaType) : Bool :=
  t.isSimple || t.hasSuffixField || (base.hasSuffixField && !t.fields.isEmpty) || t.outOfOrder base

/-- What becomes of a base. -/
inductive BaseFate where
  | keep
  | drop
  | copy
deriving DecidableEq, Repr

/-- Compares the fields of a record by name with those of its base. -/
def SchemaType.fateOf (t base : SchemaType) : BaseFate :=
  let missing := base.fields.filter fun f => !t.fields.any (·.name == f.name)
  if base.fields.isEmpty then .keep
  else if missing.isEmpty then .drop
  else if missing.length = base.fields.length then .keep
  else .copy

/-- Whether the bases of the names in the queue lead to a type. Every name is followed once. -/
def Store.basesLead (s : Store) (target : Handle) : Nat → List QName → List QName → Bool
  | _, [], _ => false
  | 0, _, _ => false
  | steps + 1, q :: queue, seen =>
    if q ∈ seen then s.basesLead target steps queue seen
    else
      match s.preferred? q .complexType with
      | none => s.basesLead target steps queue (q :: seen)
      | some t =>
        t.id == target ||
          s.basesLead target steps
            (queue ++ (t.extensions.filter (!·.type.native)).map (·.type.qname)) (q :: seen)

/-- Whether following the bases of a name leads to a type. No more steps are needed than the roots
have bases. -/
def Store.leadsTo (s : Store) (q : QName) (target : Handle) : Bool :=
  s.basesLead target (1 + Lists.total (s.types.map (·.extensions.length))) [q] []

/-- Copies of the fields of `source` at the given positions whose names are not taken. -/
def copyFields (finder : Finder) (source target : Handle) (r : Restrictions) (taken : List String) :
    List Nat → Compile (List Field)
  | [] => pure []
  | i :: rest => do
    let f ← fieldOf source i
    if taken.contains f.name then copyFields finder source target r taken rest
    else
      let copy ← borrowTypes finder source target (f.mergeFacets r)
      pure (copy :: (← copyFields finder source target r taken rest))

/-- Adds the bases of a copied base that the type does not have. -/
def SchemaType.addBases (t : SchemaType) (bases : List Extension) (r : Restrictions) : SchemaType :=
  bases.foldl (fun t base =>
    if t.extensions.any (·.type.qname == base.type.qname) then t
    else { t with extensions := t.extensions ++
      [{ base with restrictions := base.restrictions.merge r }] }) t

/-- Copies a base, already taken off the type, into it: its fields to the front, its bases to the
end. -/
def copyBase (finder : Finder) (source h : Handle) (ext : Extension) : Compile Unit := do
  let taken := (← typeOf h).fields.map (·.name)
  let count := (← typeOf source).fields.length
  let copies ← copyFields finder source h ext.restrictions taken (List.range count)
  let base ← typeOf source
  update h fun t =>
    let t := { t with fields := copies ++ t.fields }
    let t := t.addBases base.extensions ext.restrictions
    { t with mixed := t.mixed || base.mixed }

/-- Takes the base at a position off a type. -/
def dropBase (h : Handle) (i : Nat) : Compile Unit :=
  update h fun t => { t with extensions := t.extensions.eraseIdx i }

/-- Decides on the base at a position. Returns whether it is kept. -/
def settleBase (finder : Finder) (h : Handle) (i : Nat) (ext : Extension) : Compile Bool := do
  let q := ext.type.qname
  if ext.type.native || q.isNative then
    dropBase h i
    update h (·.dissolveNative ext)
    pure false
  else if (← get).leadsTo q h then
    dropBase h i
    warn Code.removedCircularBase (← typeOf h).qname.text "" ("removed circular base " ++ q.text)
    pure false
  else
    match ← finder.findPreferred q .complexType with
    | none =>
      dropBase h i
      warn Code.missingExtension (← typeOf h).qname.text ""
        ("missing extension type " ++ q.text ++ (← get).hint q)
      pure false
    | some source =>
      let t ← typeOf h
      let base ← typeOf source
      if base.isEnumeration then
        dropBase h i
        update h (·.dissolveEnumeration base ext)
        pure false
      else if !base.isComplex && t.isEnumeration then
        dropBase h i
        update h (·.retypeMembers ext.type)
        pure false
      else if !base.isComplex || t.mustCopy base || t.fateOf base = .copy then
        dropBase h i
        copyBase finder source h ext
        pure false
      else if t.fateOf base = .drop then
        dropBase h i
        pure false
      else
        update h fun t => { t with extensions := t.extensions.modify i fun e =>
          { e with type.reference := base.id } }
        pure true

/-- Decides on the bases from a position on; copied bases add theirs at the end. -/
def settleFrom (finder : Finder) (h : Handle) : Nat → Nat → Compile Unit
  | 0, _ => throw { cause := .unfinished }
  | rounds + 1, i => do
    match (← typeOf h).extensions[i]? with
    | none => pure ()
    | some ext =>
      let kept ← settleBase finder h i ext
      settleFrom finder h rounds (if kept then i + 1 else i)

/-- Drops, copies or keeps every base of a type. -/
def flattenBases (rounds : Nat) (finder : Finder) (h : Handle) : Compile Unit :=
  settleFrom finder h rounds 0

end Schemata
