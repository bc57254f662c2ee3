import Schemata.Content.Markers
import Schemata.Report.Diagnostic
import Schemata.Step.Compile

/-!
# Substitution groups

A type may stand in for the head of a substitution group that it belongs to. Next to every element
field of a head's type come fields for the members of its group, as alternatives to it. Members that
are heads themselves are expanded in turn; a field remembers the heads that it was derived from, so
a cycle of groups is cut.
-/

namespace Schemata

open Compile

/-- The field that refers to a member of a substitution group. -/
def SchemaType.substitute (t : SchemaType) : Field :=
  { tag := .element
    name := t.name
    localName := t.name
    ns := t.ns
    types := [.ofDependency t.qname] }

/-- The members of all groups with their heads, in the order of the roots, and warnings about heads
that no root is. -/
def Store.substitutions (s : Store) : List (QName × Field) × List Diagnostic :=
  let memberships := s.types.flatMap fun t => t.substitutions.map fun head => (head, t)
  let present := fun (head : QName) => (s.lookup? head fun _ => true).isSome
  ((memberships.filter fun (head, _) => present head).map fun (head, t) => (head, t.substitute),
    (memberships.filter fun (head, _) => !present head).map fun (head, t) =>
      { severity := .warning
        code := Code.missingSubstitution
        message := "substitution group head " ++ head.text ++ " not found" ++ s.hint head
        type := t.qname.text })

/-- Gathers the members of all groups before a sweep. -/
def prepareSubstitutes : Compile Unit := do
  let (substitutes, warnings) := (← get).substitutions
  warnings.forM fun d => modify (·.record (.noted d))
  modify fun s => { s with memory.substitutes := substitutes }

/-- A field and the heads that it was derived from. -/
structure Derived where
  field : Field
  heads : List QName := []

/-- A field under expansion: the fields before and after it, the substitutes it has got, and
warnings. -/
structure Expansion where
  before : List Field
  current : Derived
  found : List Derived := []
  after : List Derived
  warnings : List Diagnostic := []

/-- All fields in order. -/
def Expansion.fields (e : Expansion) : List Field :=
  e.before ++ e.current.field :: (e.found ++ e.after).map (·.field)

/-- The alternative to a field that a member of the group of `head` gives. -/
def Field.alternative (f member : Field) (head : QName) : Field :=
  (({ member with
    index := f.index
    substitutionGroup := head.name
    restrictions.choice := f.restrictions.choice
    restrictions.path := f.restrictions.path } : Field).setMin 0).setMax f.restrictions.max

/-- Adds a member of the group of `head` after the current field, unless that would go in a
circle. -/
def Expansion.addMember (owner : QName) (head : QName) (e : Expansion) (member : Field) :
    Expansion :=
  let q := (member.types.headD {}).qname
  if q ∈ e.current.heads ∨ q = head then
    { e with warnings := e.warnings ++ [{
        severity := .warning
        code := Code.substitutionCycle
        message := "substitution group cycle through " ++ q.text
        type := owner.text
        field := e.current.field.name }] }
  else
    { e with found := e.found ++
        [⟨e.current.field.alternative member head, head :: e.current.heads⟩] }

/-- Expands the type of the current field at a position. -/
def Expansion.expandType (owner : QName) (substitutes : List (QName × Field)) (e : Expansion)
    (k : Nat) : Expansion :=
  let f := e.current.field
  match f.types[k]? with
  | none => e
  | some ft =>
    if ft.substituted || !ft.isDependency then e
    else
      let f := { f with types := f.types.modify k fun ft => { ft with substituted := true } }
      let members := (substitutes.filter (·.1 == ft.qname)).map (·.2)
      if members.isEmpty then { e with current.field := f }
      else
        let marker := if f.restrictions.choice = 0 then freshChoice e.fields
          else f.restrictions.choice
        let f := { f with restrictions.choice := marker, substitutionGroup := ft.qname.name }
        members.foldl (addMember owner ft.qname) { e with current.field := f }

/-- Expands the fields that are left, one after the other, substitutes included. -/
def expandSubstitutes (owner : QName) (substitutes : List (QName × Field)) :
    Nat → List Field → List Derived → List Diagnostic → Option (List Field × List Diagnostic)
  | _, before, [], warnings => some (before, warnings)
  | 0, _, _ :: _, _ => none
  | rounds + 1, before, d :: after, warnings =>
    if d.field.isElement then
      let e := (List.range d.field.types.length).foldl (Expansion.expandType owner substitutes)
        { before, current := d, after, warnings }
      expandSubstitutes owner substitutes rounds (before ++ [e.current.field])
        (e.found ++ e.after) e.warnings
    else expandSubstitutes owner substitutes rounds (before ++ [d.field]) after warnings

/-- Adds the members of substitution groups to the fields of a type. -/
def addSubstitutes (rounds : Nat) (h : Handle) : Compile Unit := do
  let t ← typeOf h
  let fields := t.fields.map fun f => ({ field := f } : Derived)
  match expandSubstitutes t.qname (← get).memory.substitutes rounds [] fields [] with
  | none => throw { cause := .unfinished }
  | some (fields, warnings) =>
    update h fun t => { t with fields }
    warnings.forM fun d => modify (·.record (.noted d))

end Schemata
