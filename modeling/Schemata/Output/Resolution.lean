import Schemata.Digraph.Keyed
import Schemata.Model.SchemaType
import Schemata.Output.Imports
import Schemata.Report.Failure

/-!
# Resolution of a module

The types of a module are put in the order of their dependencies, and what they depend on in other
modules is imported. References that are flagged circular do not bear on the order.
-/

namespace Schemata

/-- Which module defines a qualified name, the later entry before the earlier. -/
abbrev Registry := List (QName × String)

def Registry.source? (r : Registry) (q : QName) : Option String :=
  r.reverse.lookup q

/-- How far the resolution of a module has come. -/
structure Resolution where
  types : List SchemaType := []
  /-- All names that the module defines or depends on, dependencies first. -/
  order : List QName := []
  imports : List Import := []
deriving Repr, Inhabited

namespace Resolution

def defines (r : Resolution) (q : QName) : Bool :=
  r.types.any (·.qname == q)

/-- The types of the module, dependencies first. -/
def sortedTypes (r : Resolution) : List SchemaType :=
  r.order.filterMap fun q => r.types.find? (·.qname == q)

/-- The names that the module depends on and does not define. -/
def importedNames (r : Resolution) : List QName :=
  r.order.filter fun q => !r.defines q

/-- The aliases of the imports that have one. -/
def aliases (r : Resolution) : List (QName × String) :=
  r.imports.filterMap fun i => i.aliasName.map fun a => (i.qname, a)

end Resolution

/-- The first name of a list that occurs in it before. -/
def firstRepeated? : List QName → List QName → Option QName
  | _, [] => none
  | seen, q :: rest => if q ∈ seen then some q else firstRepeated? (q :: seen) rest

/-- The names of types and of their dependencies, with an edge to each dependency that bears on the
order. -/
def dependencyGraph (types : List SchemaType) : KeyedGraph QName :=
  let nodes := types.foldl (fun g t => g.addNode t.qname) ({} : KeyedGraph QName)
  types.foldl (fun g t =>
    let g := (t.dependencies false).foldl KeyedGraph.addNode g
    (t.dependencies true).foldl (fun g q => g.addEdge t.qname q) g) nodes

/-- Finds the modules of imported names. -/
def locateImports (registry : Registry) : List QName → Except Failure (List Import)
  | [] => .ok []
  | q :: rest =>
    match registry.source? q with
    | none => .error (.ofCompile .unresolvedReference "no module defines the imported type" [q.text])
    | some source => do
      let imports ← locateImports registry rest
      .ok ({ qname := q, source } :: imports)

/-- Resolves modules over one registry, one after the other, and holds how far it has come with the
last one. -/
structure Resolver where
  registry : Registry
  current : Resolution := {}
deriving Repr, Inhabited

/-- Resolves a module, as far as it goes. What the module before has left is cleared first. -/
def Resolver.process (r : Resolver) (types : List SchemaType) : Resolver × Option Failure :=
  let r := { r with current.types := types, current.order := [], current.imports := [] }
  match firstRepeated? [] (types.map (·.qname)) with
  | some q => (r, some (.ofCompile .duplicateType "defined twice in one module" [q.text]))
  | none =>
    match (dependencyGraph types).sort with
    | .error e => (r, some (.ofCompile .dependencyCycle e.message []))
    | .ok order =>
      let r := { r with current.order := order }
      match locateImports r.registry r.current.importedNames with
      | .error f => (r, some f)
      | .ok imports =>
        ({ r with current.imports := Imports.resolveConflicts imports (types.map (·.name)) }, none)

/-- Resolves a single module, as far as it goes. -/
def resolveModule (registry : Registry) (types : List SchemaType) : Resolution × Option Failure :=
  let (r, failure) := ({ registry } : Resolver).process types
  (r.current, failure)

end Schemata
