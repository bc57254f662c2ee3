import Schemata.Config.Basic
import Schemata.Model.SchemaType
import Schemata.Name.Namespace

/-!
# Module layout

Where types belong by namespace or by the resource that they come from, and within which scope a
type's name has to be unique before the modules are known.
-/

namespace Schemata

/-- The module of types without namespace or location. -/
def defaultModule : String := "default"

/-- A package and a module name in it. -/
structure ModuleId where
  package : String
  name : String
deriving DecidableEq, Repr, Inhabited

namespace ModuleId

def path (m : ModuleId) : String :=
  ModulePath.join [m.package, m.name]

/-- The module with a path. -/
def ofPath (path : String) : ModuleId :=
  ⟨ModulePath.parent path, ModulePath.base path⟩

end ModuleId

/-- The package of a namespace. -/
def namespacePackage (package ns : String) : String :=
  ModulePath.join (package :: Name.namespaceSegments ns)

/-- The module of a namespace: the last segment names it, the others its package. -/
def namespaceModule (package ns : String) : ModuleId :=
  match (Name.namespaceSegments ns).getLast? with
  | none => ⟨package, defaultModule⟩
  | some last => ⟨ModulePath.join (package :: (Name.namespaceSegments ns).dropLast), last⟩

/-- The directories that all located types share. -/
def sharedDirectories (types : List SchemaType) : List String :=
  Location.commonStart ((types.filter (·.location != "")).map fun t =>
    Location.directories t.location)

/-- The module of a location, by its directories below the shared ones and its file name. -/
def locationModule (package : String) (shared : List String) (location : String) : ModuleId :=
  if location = "" then ⟨package, defaultModule⟩
  else
    let below := (Location.directories location).drop shared.length
    let segments := (below.map Name.snakeCase).filter (· != "")
    let name := Name.snakeCase (Location.stem location)
    ⟨ModulePath.join (package :: segments), if name = "" then defaultModule else name⟩

/-- The scope in which the name of a type has to be unique: the module that it will be in, or the
package that clusters are cut from. -/
def OutputConfig.scope (out : OutputConfig) (shared : List String) (t : SchemaType) : String :=
  match out.layout with
  | .single | .clusters => out.package
  | .namespaceClusters => namespacePackage out.package t.ns
  | .filenames => (locationModule out.package shared t.location).path
  | .namespaces => (namespaceModule out.package t.ns).path

end Schemata
