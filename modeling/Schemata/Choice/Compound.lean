import Schemata.Content.Paths
import Schemata.Name.Key
import Schemata.Store.Basic

/-!
# Compound fields

The fields of one choice may be merged into a single field that holds them as its choices. It is
named after its members, after their substitution group or by a fixed name, and its name collides
neither with another field nor with a field of a direct base.
-/

namespace Schemata

/-- Whether a field takes part in a choice. -/
def Field.inChoice (f : Field) : Bool :=
  f.restrictions.choice != 0 && !f.isAttribute && !f.isChoice

/-- A member as a choice of a compound field. Structural markers belong to the compound. -/
def Field.asChoice (f : Field) : Field :=
  { f with
    name := f.declaredName
    restrictions.choice := 0
    restrictions.sequence := 0
    restrictions.group := 0
    restrictions.path := [] }

/-- The substitution group that all members share. -/
def sharedGroup (members : List Field) : String :=
  match members with
  | [] => ""
  | f :: fs =>
    if fs.all (·.substitutionGroup == f.substitutionGroup) then f.substitutionGroup else ""

/-- The name that a compound field should have. -/
def CompoundConfig.nameFor (c : CompoundConfig) (members : List Field) : String :=
  let group := sharedGroup members
  if c.forceDefaultName || members.length > c.maxNameParts then c.defaultName
  else if c.useSubstitutionGroups && group != "" then group
  else String.intercalate "_Or_" (members.map Field.declaredName)

/-- The bounds of a compound field: of a choice particle its own lower bound if the path shows it,
else the sum of the members' lower bounds; and the greatest upper bound. -/
def compoundBounds (marker : Int) (members : List Field) : Int × Int :=
  let sum := members.foldl (fun n f => Occurs.add n f.restrictions.min) 0
  let most := members.foldl (fun n f => max n f.restrictions.max) 0
  let path := (members.headD {}).restrictions.path
  (if marker > 0 then (choiceMin? marker path).getD sum else sum, most)

/-- The compound field of the members of a choice. -/
def compoundField (name : String) (marker : Int) (members : List Field) : Field :=
  let first := members.headD {}
  let (min, max) := compoundBounds marker members
  { tag := .choice
    name
    index := first.index
    types := [.ofNative Native.anyType]
    choices := members.map Field.asChoice
    restrictions := { Restrictions.occurs min max with sequence := first.restrictions.sequence } }

/-- The fields of the direct bases of a type. A type that is its own base has `current` fields. -/
def Store.baseFields (s : Store) (t : SchemaType) (current : List Field) : List Field :=
  t.extensions.flatMap fun (e : Extension) =>
    if e.type.reference == 0 then []
    else match s.ofHandle? e.type.reference with
      | some base => if base.id == t.id then current else base.fields
      | none => []

/-- Puts the compound of the choice with a marker in the place of its first member. Every field has
its first position beside it, by which members are known; compounds have none. -/
def mergeChoice (c : CompoundConfig) (inherited : List Field → List Field)
    (fields : List (Field × Option Nat)) (group : Int × List Nat) : List (Field × Option Nat) :=
  let (marker, places) := group
  let isMember := fun (p : Field × Option Nat) => p.2.any places.contains
  let members := (fields.filter isMember).map (·.1)
  let others := (fields.filter (!isMember ·)).map (·.1)
  let taken := (others ++ inherited (fields.map (·.1))).map fun f => Name.key f.name
  let (name, _) := Name.unique (c.nameFor members) taken
  fields.filterMap fun p =>
    if p.2 == places.head? then some (compoundField name marker members, none)
    else if isMember p then none
    else some p

/-- The choices with several members: marker and positions, by first appearance. -/
def choiceGroups (fields : List Field) : List (Int × List Nat) :=
  let placed := fields.zipIdx.filter fun (f, _) => f.inChoice
  let markers := (placed.map fun (f, _) => f.restrictions.choice).eraseDups
  (markers.map fun m =>
    (m, (placed.filter fun (f, _) => f.restrictions.choice == m).map (·.2))).filter
      fun (_, places) => places.length > 1

/-- Merges the fields of every choice into a compound field. `inherited` gives the fields of the
bases, from the fields that the type has come to. -/
def SchemaType.compound (t : SchemaType) (c : CompoundConfig)
    (inherited : List Field → List Field) : SchemaType :=
  let fields := t.fields.zipIdx.map fun (f, i) => (f, some i)
  { t with fields :=
    ((choiceGroups t.fields).foldl (mergeChoice c inherited) fields).map (·.1) }

/-- Merges choices into compound fields, if that is asked for. -/
def Store.compoundFields (s : Store) (t : SchemaType) : SchemaType :=
  if s.config.compoundFields.enabled then t.compound s.config.compoundFields (s.baseFields t) else t

end Schemata
