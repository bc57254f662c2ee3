import Schemata.Binding.Borrow

/-!
# Group expansion

A reference to a group or an attribute group is replaced by copies of the group's fields. A copied
field remembers the groups that it was expanded from, so a group that includes itself, directly or
through others, is cut where it would come back.
-/

namespace Schemata

open Compile

/-- Markers of expanded groups start beyond those that documents use. -/
def groupMarkerBase : Int := 1048576

/-- Whether a type declares an attribute already. -/
def SchemaType.declaresAttribute (t : SchemaType) (f : Field) : Bool :=
  t.fields.any fun g => g.isAttribute && g.name == f.name && g.ns == f.ns

/-- Puts fields in the place of the one at a position. -/
def splice (i : Nat) (copies : List α) (fields : List α) : List α :=
  fields.take i ++ copies ++ fields.drop (i + 1)

/-- The way to the fields of an expanded reference; a group gets a marker of its own. -/
def groupPath (ref : Field) : Compile (List PathEntry) := do
  if ref.tag = .group then
    modify fun s => { s with memory.groupMarker := s.memory.groupMarker + 1 }
    let entry : PathEntry :=
      ⟨.group, (← get).memory.groupMarker, ref.restrictions.min, ref.restrictions.max⟩
    pure (ref.restrictions.path ++ [entry])
  else pure ref.restrictions.path

/-- Copies of the group's fields at the given positions; attributes that the type declares itself
are left out. -/
def copyMembers (finder : Finder) (source target : Handle) (ref : Field) (way : List PathEntry) :
    List Nat → Compile (List Field)
  | [] => pure []
  | i :: rest => do
    let f ← fieldOf source i
    if f.isAttribute && (← typeOf target).declaresAttribute f then
      copyMembers finder source target ref way rest
    else
      let copy := f.mergeFacets ref.restrictions
      let copy := { copy with restrictions.path := way ++ f.restrictions.path }
      let copy ← borrowTypes finder source target copy
      pure (copy :: (← copyMembers finder source target ref way rest))

/-- Expands the reference at a position, which stems from the groups of `lineage`. Returns how many
fields took its place and what they stem from. -/
def expandAt (finder : Finder) (h : Handle) (i : Nat) (lineage : List QName) :
    Compile (Nat × List QName) := do
  let ref ← fieldOf h i
  let drop : Compile (Nat × List QName) := do
    update h fun t => { t with fields := splice i [] t.fields }
    pure (0, [])
  match ref.types with
  | [] => drop
  | ft :: _ =>
    let q := ft.qname
    match ← finder.find q fun t => t.tag == ref.tag with
    | none => throw ((← get).missing q (← typeOf h) ref.tag.text)
    | some source =>
      if source = h ∨ q ∈ lineage then drop
      else
        let way ← groupPath ref
        let count := (← typeOf source).fields.length
        let copies ← copyMembers finder source h ref way (List.range count)
        update h fun t => { t with fields := splice i copies t.fields }
        pure (copies.length, q :: lineage)

/-- Expands the references among the `count` fields from position `i` on, which stem from the groups
of `lineage`, the first one first; `expand` goes on with the fields that took the place of one.
Returns the position after all of them. -/
def expandSpan (finder : Finder) (h : Handle) (expand : List QName → Nat → Nat → Compile Nat)
    (lineage : List QName) : Nat → Nat → Compile Nat
  | 0, i => pure i
  | count + 1, i => do
    if (← fieldOf h i).isGroup then
      let (added, origin) ← expandAt finder h i lineage
      let next ← expand origin added i
      expandSpan finder h expand lineage count next
    else expandSpan finder h expand lineage count (i + 1)

/-- Expands references in fields and in what takes their place, until none is left; `depth` bounds how
many groups a field can stem from. -/
def expandWithin (finder : Finder) (h : Handle) : Nat → List QName → Nat → Nat → Compile Nat
  | 0, _, _, _ => throw { cause := .unfinished }
  | depth + 1, lineage, count, i =>
    expandSpan finder h (expandWithin finder h depth) lineage count i

/-- Replaces every group reference of a type by the fields of the group. -/
def expandGroups (rounds : Nat) (finder : Finder) (h : Handle) : Compile Unit := do
  let count := (← typeOf h).fields.length
  let _ ← expandWithin finder h rounds [] count 0

/-- Drops the groups themselves. -/
def Store.dropGroups (s : Store) : Store :=
  s.remove ((s.roots.filter (·.type.isGroup)).map (·.key))

end Schemata
