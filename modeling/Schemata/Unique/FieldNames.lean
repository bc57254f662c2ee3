import Schemata.Inherit.Overrides
import Schemata.Name.Namespace

/-!
# Unique field names

Fields of a type whose names have one key are renamed. Of two such fields one is told apart by its
construct or its namespace where that helps; otherwise all but the first are numbered.
-/

namespace Schemata

/-- Fields under renaming: the keys taken, and what has been renamed from which name. -/
structure FieldNaming where
  fields : List Field
  taken : List String
  renamed : List (String × String) := []

namespace FieldNaming

/-- Gives the field at a position another name. -/
def rename (n : FieldNaming) (i : Nat) (name : String) : FieldNaming :=
  let old := (n.fields[i]?.getD {}).name
  { n with
    fields := n.fields.modify i (·.rename name)
    renamed := n.renamed ++ [(old, name)] }

/-- Gives the field at a position a name, unless its key is taken. -/
def rename? (n : FieldNaming) (i : Nat) (name : String) : Option FieldNaming :=
  let key := Name.key name
  if n.taken.contains key then none else some ({ n with taken := key :: n.taken }.rename i name)

/-- Tells two fields apart, if they differ in construct or namespace: by the construct of the
attribute, else of the second; or by the namespace of the second. -/
def tellApart? (n : FieldNaming) (i j : Nat) : Option FieldNaming :=
  let a := n.fields[i]?.getD {}
  let b := n.fields[j]?.getD {}
  if a.tag ≠ b.tag then
    let (k, f) := if a.isAttribute && !b.isAttribute then (i, a) else (j, b)
    n.rename? k (f.name ++ "_" ++ f.tag.suffixWord)
  else if a.ns ≠ b.ns ∧ a.ns ≠ "" ∧ b.ns ≠ "" then
    match (Name.namespaceSegments b.ns).getLast? with
    | none => none
    | some segment => n.rename? j (segment ++ "_" ++ b.name)
  else none

/-- Gives the field at a position the first free alternative of its name. -/
def number (n : FieldNaming) (i : Nat) : FieldNaming :=
  let (name, taken) := Name.nextFree (n.fields[i]?.getD {}).name n.taken
  { n with taken }.rename i name

/-- Settles the fields at the given positions, whose names have one key. -/
def settle (n : FieldNaming) (places : List Nat) : FieldNaming :=
  match places with
  | [i, j] => (n.tellApart? i j).getD (n.number j)
  | places => (places.drop 1).foldl number n

end FieldNaming

/-- The positions of fields by the keys of their names, in the order of first appearance. -/
def sameKeys (fields : List Field) : List (List Nat) :=
  let keyed := fields.zipIdx.map fun (f, i) => (Name.key f.name, i)
  (keyed.map (·.1)).eraseDups.map fun k => (keyed.filter (·.1 == k)).map (·.2)

/-- Makes the names of fields unique. -/
def nameFields (fields : List Field) : FieldNaming :=
  (sameKeys fields).foldl FieldNaming.settle
    { fields, taken := fields.map fun f => Name.key f.name }

/-- Makes the names of the fields of a type unique, and of the choices of each field. -/
def SchemaType.nameFields (t : SchemaType) : SchemaType × List Diagnostic :=
  let named := Schemata.nameFields t.fields
  let fields := named.fields.map fun f =>
    if f.choices.length > 1 then { f with choices := (Schemata.nameFields f.choices).fields } else f
  ({ t with fields }, named.renamed.map fun (old, new) => renamedFieldNote t old new)

end Schemata
