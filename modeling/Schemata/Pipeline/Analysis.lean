import Schemata.Output.Integrity
import Schemata.Output.Resolution
import Schemata.Pipeline.Stage

/-!
# Analysis

From the types of a schema to the modules of generated types: validation, the pipeline, the
integrity check, and the resolution of every module.
-/

namespace Schemata

/-- An output module: its types, dependencies first, and what they need from other modules. -/
structure Module where
  path : String
  package : String
  name : String
  types : List SchemaType
  imports : List Import
deriving Repr, Inhabited

def Module.typeNames (m : Module) : List String :=
  m.types.map (·.name)

/-- What an analysis yields. After a failure there are no types and no modules. -/
structure Analysis where
  types : List SchemaType := []
  /-- Sorted by path. -/
  modules : List Module := []
  diagnostics : Diagnostics := {}
  journal : List Event := []
  failure : Option Failure := none
deriving Repr, Inhabited

namespace Analysis

/-- The module with a path. -/
def module? (a : Analysis) (path : String) : Option Module :=
  a.modules.find? (·.path == path)

/-- The first type of a name. -/
def lookup? (a : Analysis) (q : QName) : Option SchemaType :=
  a.types.find? (·.qname == q)

end Analysis

/-- Which module each type is in. -/
def registryOf (types : List SchemaType) : Registry :=
  types.map fun t => (t.qname, t.modulePath)

/-- The distinct module paths of types, ascending. -/
def modulePaths (types : List SchemaType) : List String :=
  (types.map (·.modulePath)).eraseDups.mergeSort fun a b => !decide (b < a)

/-- Resolves the module with a path. -/
def moduleAt (types : List SchemaType) (path : String) : Except Failure Module :=
  let members := types.filter (·.modulePath == path)
  match resolveModule (registryOf types) members with
  | (_, some failure) => .error (failure.within ("resolve module " ++ path))
  | (r, none) =>
    let first := members.headD {}
    .ok { path
          package := first.package
          name := first.moduleName
          types := r.sortedTypes
          imports := r.imports }

/-- Resolves all modules, in the order of their paths. -/
def resolveModules (types : List SchemaType) : Except Failure (List Module) :=
  (modulePaths types).mapM (moduleAt types)

/-- Complains when the roots violate integrity. -/
def checkIntegrity : Compile Unit := do
  match integrityViolation? (← get).types with
  | some failure => throw failure
  | none => pure ()

/-- The whole way from the roots to their modules. -/
def compileModules (cancelled : Bool) : Compile (List Module) := do
  Compile.within "validate" (Stage.validate.run cancelled)
  runStages cancelled pipeline
  Compile.within "integrity" checkIntegrity
  match resolveModules (← get).types with
  | .ok modules => pure modules
  | .error failure => throw failure

/-- Analyzes the types of a schema. -/
def analyze (config : Config) (types : List SchemaType) (cancelled : Bool) : Analysis :=
  let start := ({ config } : Store).insertAll types
  match (compileModules cancelled).run.run start with
  | (.ok modules, s) =>
    { types := s.types, modules, diagnostics := s.diagnostics, journal := s.journal }
  | (.error failure, s) =>
    { diagnostics := s.diagnostics.add failure.diagnostic
      journal := s.journal
      failure := some failure }

end Schemata
