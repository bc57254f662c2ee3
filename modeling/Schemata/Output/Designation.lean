import Schemata.Name.Key
import Schemata.Output.Layout
import Schemata.Step.Compile

/-!
# Designation of modules

Every root gets the module that the layout asks for, and inner types share it. Clusters are the
strongly connected components of the references between roots. A cycle of references must not lead
through several modules.
-/

namespace Schemata

open Compile

/-- Puts a type into a module. -/
def SchemaType.setModule (t : SchemaType) (m : ModuleId) : SchemaType :=
  { t with package := m.package, moduleName := m.name }

/-- The entries that own handles: the root that a type is nested in, for a handle the last. -/
def ownerOf? (roots : List Entry) (h : Handle) : Option Nat :=
  (roots.reverse.find? fun e => e.type.walk.any (·.id == h)).map (·.key)

/-- The references between roots; what is nested counts for its root. -/
def Store.rootGraph (s : Store) : KeyedGraph Nat :=
  let nodes := s.roots.foldl (fun g e => g.addNode e.key) ({} : KeyedGraph Nat)
  s.roots.foldl (fun g e =>
    (e.type.dependencyRefs.filterMap (ownerOf? s.roots)).foldl (fun g dep =>
      g.addEdge e.key dep) g) nodes

/-- The root types of entries. -/
def Store.typesOf (s : Store) (keys : List Nat) : List SchemaType :=
  keys.filterMap s.typeOfKey?

/-- The type that names a cluster: the first element, else the first type. -/
def representative (cluster : List SchemaType) : SchemaType :=
  (cluster.find? (·.isElement)).getD (cluster.headD {})

/-- The modules of clusters, each named after its representative, by a name that is free in its
package. -/
def clusterModules (packageOf : SchemaType → String) :
    List (List SchemaType) → List (String × List String) → List ModuleId
  | [], _ => []
  | cluster :: rest, taken =>
    let rep := representative cluster
    let package := packageOf rep
    let snake := Name.snakeCase rep.name
    let (name, keys) := Name.unique (if snake = "" then defaultModule else snake)
      ((taken.lookup package).getD [])
    ⟨package, name⟩ :: clusterModules packageOf rest ((package, keys) :: taken)

/-- Puts each cluster into a module of its own. -/
def Store.designateClusters (s : Store) (clusters : List (List Nat))
    (packageOf : SchemaType → String) : Store :=
  let modules := clusterModules packageOf (clusters.map s.typesOf) []
  (clusters.zip modules).foldl (fun s (cluster, m) =>
    cluster.foldl (fun s key => s.updateEntry key (·.setModule m)) s) s

/-- Puts every root into the module that a function gives. -/
def Store.designateBy (s : Store) (moduleOf : SchemaType → ModuleId) : Store :=
  { s with roots := s.roots.map fun e => { e with type := e.type.setModule (moduleOf e.type) } }

/-- The failure for a cluster that cannot be split into modules. -/
def circularModules (cluster : List SchemaType) (detail : String) : Failure :=
  .ofCompile .circularModules detail (cluster.map (·.qname.text))

/-- The first cluster that has types of several namespaces. -/
def mixedCluster? (clusters : List (List SchemaType)) : Option (List SchemaType) :=
  clusters.find? fun cluster => cluster.any fun t => t.ns != (cluster.headD {}).ns

/-- Complains about the first cluster that leads through several modules. -/
def splitCluster? (clusters : List (List SchemaType)) : Option Failure :=
  clusters.findSome? fun cluster =>
    let path := (cluster.headD {}).modulePath
    (cluster.find? fun t => t.modulePath != path).map fun t =>
      circularModules cluster
        ("modules " ++ path ++ " and " ++ t.modulePath ++ " depend on each other")

/-- Puts all nested types into the modules of their roots. -/
def Store.inheritModules (s : Store) : Store :=
  let settle := fun (t : SchemaType) => t.mapTree (·.setModule ⟨t.package, t.moduleName⟩)
  { s with roots := s.roots.map fun e => { e with type := settle e.type } }

/-- Puts the roots into modules by the layout. -/
def designateRoots (clusters : List (List Nat)) : Compile Unit := do
  let s ← get
  let out := s.config.output
  match out.layout with
  | .single => set (s.designateBy fun _ => .ofPath out.package)
  | .clusters => set (s.designateClusters clusters fun _ => out.package)
  | .namespaceClusters =>
    match mixedCluster? (clusters.map s.typesOf) with
    | some cluster => throw (circularModules cluster "cluster spans namespaces")
    | none => set (s.designateClusters clusters fun t => namespacePackage out.package t.ns)
  | .filenames =>
    let shared := sharedDirectories s.types
    set (s.designateBy fun t => locationModule out.package shared t.location)
  | .namespaces => set (s.designateBy fun t => namespaceModule out.package t.ns)

/-- Gives every type its module. -/
def designate : Compile Unit := do
  let clusters := (← get).rootGraph.components
  designateRoots clusters
  modify (·.inheritModules)
  match splitCluster? (clusters.map (← get).typesOf) with
  | some failure => throw failure
  | none => pure ()

end Schemata
