import Schemata.Binding.Circular
import Schemata.Binding.Inner
import Schemata.Binding.References
import Schemata.Binding.Wrappers
import Schemata.Choice.Alternatives
import Schemata.Choice.Compound
import Schemata.Choice.Substitutes
import Schemata.Content.Groups
import Schemata.Content.Mixed
import Schemata.Content.Repeated
import Schemata.Inherit.Bases
import Schemata.Inherit.Overrides
import Schemata.Unique.FieldNames
import Schemata.Value.Defaults
import Schemata.Value.Enumerations

/-!
# Passes

A pass works on one type at a time. Some look at other types through a finder, and some gather what
they need to know about all roots before a sweep.
-/

namespace Schemata

open Compile

structure Pass where
  /-- Gathers what the pass needs before a sweep. -/
  prepare : Compile Unit := pure ()
  /-- Works on a type. The number bounds the loops whose length no list gives. -/
  run : Nat → Finder → Handle → Compile Unit

namespace Pass

/-- Changes a type by what it holds itself. -/
def onType (g : SchemaType → SchemaType) : Pass :=
  { run := fun _ _ h => update h g }

/-- Changes a type by what it and the store hold, and records notes. -/
def noting (g : Store → SchemaType → SchemaType × List Diagnostic) : Pass :=
  { run := fun _ _ h => do
      let (t, notes) := g (← get) (← typeOf h)
      update h fun _ => t
      notes.forM fun d => modify (·.record (.noted d)) }

/-- Replaces references to groups by the fields of the groups. -/
def expandGroups : Pass :=
  { run := Schemata.expandGroups }

/-- Folds content model paths into markers and bounds. -/
def foldPaths : Pass :=
  onType (·.foldPaths)

/-- Drops, copies or keeps every base. -/
def flattenBases : Pass :=
  { run := Schemata.flattenBases }

/-- Parts members from other fields and flattens unions of enumerations. -/
def settleEnumerations : Pass :=
  { run := fun _ finder h => settleEnumeration finder h }

/-- Turns elements that repeat with others in between into repeating choices. -/
def groupRepetitions : Pass :=
  onType (·.groupRepetitions)

/-- Makes inner types roots. -/
def promoteInner : Pass :=
  { run := fun _ _ h => Schemata.promoteInner h }

/-- Adds the members of substitution groups. -/
def addSubstitutes : Pass :=
  { prepare := prepareSubstitutes
    run := fun rounds _ h => Schemata.addSubstitutes rounds h }

/-- Binds the references of fields. -/
def bindReferences : Pass :=
  { run := fun _ finder h => Schemata.bindReferences finder h }

/-- Merges fields that are declared more than once. -/
def mergeFields : Pass :=
  onType (·.mergeFields)

/-- Gives types with mixed content a wildcard that collects it. -/
def collectMixed : Pass :=
  onType (·.collectMixed)

/-- Unwraps lists, if that is asked for. -/
def unwrapLists : Pass :=
  { run := fun _ finder h => Schemata.unwrapLists finder h }

/-- Clears the markers of sequences that do not repeat. -/
def clearSequences : Pass :=
  onType (·.clearSequences)

/-- Makes the names of fields unique. -/
def nameFields : Pass :=
  noting fun _ t => t.nameFields

/-- Checks default values. -/
def checkDefaults : Pass :=
  { run := fun _ finder h => Schemata.checkDefaults finder h }

/-- Checks fields against those that are inherited. -/
def checkOverrides : Pass :=
  noting fun s t =>
    let (fields, notes) := s.checkOverrides t
    ({ t with fields }, notes)

/-- Removes duplicate and empty inner types; they are kept aside. -/
def vacuum : Pass :=
  { run := fun _ _ h => do
      let t ← typeOf h
      update h (·.vacuum)
      let kept := (← typeOf h).inner.map (·.id)
      modify (·.setAside (t.inner.filter fun u => !kept.contains u.id)) }

/-- Merges choices into compound fields, if that is asked for. -/
def compoundFields : Pass :=
  noting fun s t => (s.compoundFields t, [])

/-- Makes the choices of compound fields distinguishable. -/
def separateAlternatives : Pass :=
  { run := fun _ _ h => Schemata.separateAlternatives h }

/-- Flags dependencies that lead back to the type. -/
def flagCircular : Pass :=
  { prepare := modify fun s => { s with memory.references := s.referenceGraph }
    run := fun _ _ h => do
      let g := (← get).memory.references
      update h (·.flagCircular g) }

/-- Numbers fields, choices and sequences from the top. -/
def renumberFields : Pass :=
  onType (·.renumberFields)

end Pass

end Schemata
