import Schemata.Text.Quoted

/-!
# Configuration

What the compiler can be told: how types are grouped into modules, which are generated, whether
inner types are promoted and wrapped lists unwrapped, and how alternatives become compound fields.
-/

namespace Schemata

/-- How types are grouped into output modules. -/
inductive Structure where
  /-- By namespace. -/
  | namespaces
  /-- All in one module. -/
  | single
  /-- A module for each cluster of types that refer to each other. -/
  | clusters
  /-- Clusters inside the package of their namespace. -/
  | namespaceClusters
  /-- By the resource that a type comes from. -/
  | filenames
deriving DecidableEq, Repr, Inhabited

namespace Structure

def all : List Structure :=
  [namespaces, single, clusters, namespaceClusters, filenames]

def text : Structure → String
  | namespaces => "namespaces"
  | single => "single"
  | clusters => "clusters"
  | namespaceClusters => "namespace-clusters"
  | filenames => "filenames"

def parse? (s : String) : Option Structure :=
  all.find? (·.text == s)

end Structure

/-- What becomes of types that only wrap one repeating element. -/
inductive WrappedLists where
  | keep
  | unwrap
deriving DecidableEq, Repr, Inhabited

namespace WrappedLists

def text : WrappedLists → String
  | keep => "keep"
  | unwrap => "unwrap"

def parse? (s : String) : Option WrappedLists :=
  [keep, unwrap].find? (·.text == s)

end WrappedLists

/-- Which types are generated. -/
inductive Filter where
  /-- The generatable roots and all that they depend on. -/
  | globals
  | all
deriving DecidableEq, Repr, Inhabited

namespace Filter

def text : Filter → String
  | globals => "globals"
  | all => "all"

def parse? (s : String) : Option Filter :=
  [globals, all].find? (·.text == s)

end Filter

structure OutputConfig where
  package : String := "generated"
  layout : Structure := .namespaces
  unnestClasses : Bool := false
  wrappedLists : WrappedLists := .keep
  ignorePatterns : Bool := false
  keeps : Filter := .globals
deriving DecidableEq, Repr, Inhabited

structure CompoundConfig where
  enabled : Bool := false
  /-- The most member names that are joined into a compound name. -/
  maxNameParts : Int := 3
  defaultName : String := "choice"
  useSubstitutionGroups : Bool := false
  forceDefaultName : Bool := false
deriving DecidableEq, Repr, Inhabited

structure Config where
  output : OutputConfig := {}
  compoundFields : CompoundConfig := {}
  /-- How many types a parallel step may work on at a time; zero leaves it to the machine. -/
  workers : Int := 0
deriving DecidableEq, Repr, Inhabited

end Schemata
