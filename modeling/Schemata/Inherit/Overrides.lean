import Schemata.Lists.Groups
import Schemata.Name.Key
import Schemata.Report.Diagnostic
import Schemata.Store.Basic

/-!
# Overrides

A field that a type shares with one that it inherits overrides it when both are attributes or both
are not and their namespaces agree. An override that prohibits the field or changes nothing is
dropped. A field that only shares its name is renamed.
-/

namespace Schemata

/-- The fields of the bases in the queue and of their bases, nearer bases first, one for each key.
Every base is followed once. -/
def Store.gatherFields (s : Store) :
    Nat → List Extension → List Handle → List (String × Field) → List (String × Field)
  | _, [], _, found => found
  | 0, _, _, found => found
  | steps + 1, ext :: queue, seen, found =>
    let ref := ext.type.reference
    if ext.type.native || ref == 0 || seen.contains ref then s.gatherFields steps queue seen found
    else
      match s.ofHandle? ref with
      | none => s.gatherFields steps queue (ref :: seen) found
      | some base =>
        let found := base.fields.foldl (fun found f =>
          if found.any (·.1 == Name.key f.name) then found
          else found ++ [(Name.key f.name, f)]) found
        s.gatherFields steps (queue ++ base.extensions) (ref :: seen) found

/-- The fields that a type inherits, by key. -/
def Store.inheritedFields (s : Store) (t : SchemaType) : List (String × Field) :=
  let bases := Lists.total ((SchemaType.walkAll s.types).map (·.extensions.length))
  s.gatherFields (1 + t.extensions.length + bases) t.extensions [t.id] []

/-- Whether a field overrides an inherited one, rather than only sharing its name. -/
def Field.overrides (f base : Field) : Bool :=
  f.isAttribute == base.isAttribute && f.ns == base.ns

/-- Whether an override changes nothing. -/
def Field.restates (f base : Field) : Bool :=
  f.tag == base.tag && f.restrictions.min == base.restrictions.min &&
    f.restrictions.max == base.restrictions.max && f.defaultValue == base.defaultValue &&
    f.fixed == base.fixed && f.mixed == base.mixed &&
    f.types.map (·.qname) == base.types.map (·.qname)

/-- What checking the fields of a type comes to. -/
structure OverrideCheck where
  kept : List Field := []
  taken : List String
  notes : List Diagnostic := []

/-- The note on a prohibited field that nothing is inherited for. -/
def prohibitedNote (owner : SchemaType) (f : Field) : Diagnostic :=
  { severity := .info
    code := Code.prohibitedOverride
    message := "dropped prohibited field without inherited declaration"
    type := owner.qname.text
    field := f.name }

/-- The warning that a field shares the name, not the namespace, of an inherited one. -/
def namespaceWarning (owner : SchemaType) (f base : Field) : Diagnostic :=
  { severity := .warning
    code := Code.namespaceOverride
    message := "field overrides inherited " ++ base.name ++ " from namespace " ++
      Text.quote base.ns ++ " with namespace " ++ Text.quote f.ns
    type := owner.qname.text
    field := f.name }

/-- The note on a renamed field. -/
def renamedFieldNote (owner : SchemaType) (old new : String) : Diagnostic :=
  { severity := .info
    code := Code.renamedField
    message := "renamed field to " ++ new
    type := owner.qname.text
    field := old }

/-- Checks one field. -/
def OverrideCheck.step (owner : SchemaType) (inherited : List (String × Field))
    (c : OverrideCheck) (f : Field) : OverrideCheck :=
  match inherited.lookup (Name.key f.name) with
  | none =>
    if f.isProhibited then { c with notes := c.notes ++ [prohibitedNote owner f] }
    else { c with kept := c.kept ++ [f] }
  | some base =>
    if f.overrides base then
      if f.isProhibited || f.restates base then c else { c with kept := c.kept ++ [f] }
    else
      let warnings := if f.isAttribute == base.isAttribute then [namespaceWarning owner f base]
        else []
      let (name, taken) := Name.unique (f.name ++ "_" ++ f.tag.suffixWord) c.taken
      { kept := c.kept ++ [f.rename name]
        taken
        notes := c.notes ++ warnings ++ [renamedFieldNote owner f.name name] }

/-- Checks the fields of a type against those that it inherits. -/
def Store.checkOverrides (s : Store) (t : SchemaType) : List Field × List Diagnostic :=
  let inherited := s.inheritedFields t
  let taken := inherited.map (·.1) ++ t.fields.map fun f => Name.key f.name
  let c := t.fields.foldl (OverrideCheck.step t inherited) { taken }
  (c.kept, c.notes)

end Schemata
