import Schemata.Output.Designation
import Schemata.Pipeline.Filtering
import Schemata.Pipeline.Validation
import Schemata.Step.Engine
import Schemata.Unique.TypeNames

/-!
# Stages

A stage works on all roots: a step applies passes type by type, and the other stages look at the
roots as a whole. `pipeline` lists the stages that make generated types out of schema types.
-/

namespace Schemata

inductive Stage where
  | step (s : Step)
  /-- Sorts out roots of one name. -/
  | validate
  /-- Drops the groups, which have been expanded. -/
  | dropGroups
  /-- Drops what is not generated. -/
  | filter
  /-- Makes the names of roots unique. -/
  | nameTypes
  /-- Gives every type its module. -/
  | designate

namespace Stage

def name : Stage → String
  | step s => s.name
  | validate => "validate"
  | dropGroups => "remove-groups"
  | filter => "filter"
  | nameTypes => "rename-types"
  | designate => "designate"

/-- Runs the stage; steps give up at once when the run is called off. -/
def run (cancelled : Bool) : Stage → Compile Unit
  | step s => s.run cancelled
  | validate => modify (·.validate)
  | dropGroups => modify (·.dropGroups)
  | filter => modify (·.filterGenerated)
  | nameTypes => modify (·.nameTypes)
  | designate => Schemata.designate

end Stage

def Step.ungroup : Step :=
  { name := "ungroup"
    busy := .ungrouping
    done := .ungrouped
    passes := [.expandGroups]
    parallel := false }

def Step.flatten : Step :=
  { name := "flatten"
    busy := .flattening
    done := .flattened
    passes := [.foldPaths, .flattenBases, .settleEnumerations, .groupRepetitions, .promoteInner,
      .addSubstitutes, .bindReferences, .mergeFields, .collectMixed, .unwrapLists]
    parallel := false }

def Step.sanitize : Step :=
  { name := "sanitize"
    busy := .sanitizing
    done := .sanitized
    passes := [.clearSequences, .nameFields]
    parallel := true }

def Step.resolve : Step :=
  { name := "resolve"
    busy := .resolving
    done := .resolved
    passes := [.checkDefaults, .checkOverrides]
    parallel := false }

def Step.cleanup : Step :=
  { name := "cleanup"
    busy := .cleaning
    done := .cleaned
    passes := [.vacuum]
    parallel := false }

def Step.compound : Step :=
  { name := "compound"
    busy := .compounding
    done := .compounded
    passes := [.compoundFields, .separateAlternatives]
    parallel := false }

def Step.finalize : Step :=
  { name := "finalize"
    busy := .finalizing
    done := .finalized
    passes := [.flagCircular, .renumberFields]
    parallel := true }

/-- The stages after validation, in order. -/
def pipeline : List Stage :=
  [.step .ungroup, .dropGroups, .step .flatten, .filter, .step .sanitize, .step .resolve,
    .step .cleanup, .step .compound, .nameTypes, .step .finalize, .designate]

/-- Runs stages one after the other, up to the first that fails. -/
def runStages (cancelled : Bool) : List Stage → Compile Unit
  | [] => pure ()
  | stage :: rest => do
    Compile.within ("pipeline stage " ++ stage.name) (stage.run cancelled)
    modify fun s => s.record (.staged stage.name s.roots.length)
    runStages cancelled rest

end Schemata
