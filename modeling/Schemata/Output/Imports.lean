import Schemata.Name.Location
import Schemata.Name.Namespace
import Schemata.Name.QName

/-!
# Imports and aliases

A module imports the types of other modules that it refers to. Imports whose names collide, ignoring
case, with each other or with a name of the module itself get aliases: the shortest end of their
module paths that tells them apart, before their names.
-/

namespace Schemata

structure Import where
  qname : QName
  /-- The path of the module that defines the type. -/
  source : String
  aliasName : Option String := none
deriving DecidableEq, Repr, Inhabited

/-- What the type is called in the importing module. -/
def Import.name (i : Import) : String :=
  i.aliasName.getD i.qname.name

namespace Imports

/-- The last `n` segments of a module path, joined by underscores. -/
def pathEnd (source : String) (n : Nat) : String :=
  let segments := Text.split '.' source
  String.intercalate "_" (segments.drop (segments.length - n))

/-- For each import of a list the shortest end of its path that is unique in the list; if the whole
paths are not unique, the whole path and the last segment of the namespace. -/
def distinctEnds (group : List Import) : List String :=
  let depth := (group.map fun i => (Text.split '.' i.source).length).foldl max 0
  let ends := fun n => group.map fun i => pathEnd i.source n
  match (List.range depth).find? fun n => (ends (n + 1)).Nodup with
  | some n => ends (n + 1)
  | none => group.map fun i =>
      match (Name.namespaceSegments i.qname.ns).getLast? with
      | some segment => pathEnd i.source depth ++ "_" ++ segment
      | none => pathEnd i.source depth

/-- Gives aliases to the imports at the given positions, which share a name. -/
def aliasGroup (imports : List Import) (places : List Nat) : List Import :=
  let group := places.filterMap fun i => imports[i]?
  (places.zip (distinctEnds group)).foldl (fun imports (i, start) =>
    imports.modify i fun imp => { imp with aliasName := some (start ++ "_" ++ imp.qname.name) }) imports

/-- Gives an alias to a single import whose name the module has itself. -/
def aliasSingle (imports : List Import) (i : Nat) : List Import :=
  imports.modify i fun imp =>
    let start := Name.snakeCase (ModulePath.base imp.source)
    { imp with aliasName := some (start ++ "_" ++ imp.qname.name) }

/-- Gives aliases to imports whose names collide. -/
def giveAliases (reserved : List String) (imports : List Import) : List Import :=
  let keyed := imports.zipIdx.map fun (imp, i) => (Text.lower imp.qname.name, i)
  (keyed.map (·.1)).eraseDups.foldl (fun imports key =>
    match (keyed.filter (·.1 == key)).map (·.2) with
    | [i] => if reserved.contains key then aliasSingle imports i else imports
    | places => aliasGroup imports places) imports

/-- Numbers aliases that collide with a reserved name or an earlier alias. -/
def separateAliases : List String → List Import → List Import
  | _, [] => []
  | reserved, imp :: rest =>
    match imp.aliasName with
    | none => imp :: separateAliases reserved rest
    | some given =>
      if reserved.contains (Text.lower given) then
        let (free, _) := Name.nextFree given (reserved.map Name.key)
        { imp with aliasName := some free } :: separateAliases (Text.lower free :: reserved) rest
      else imp :: separateAliases (Text.lower given :: reserved) rest

/-- Makes the names of imports usable beside each other and beside the protected names. -/
def resolveConflicts (imports : List Import) (protectedNames : List String) : List Import :=
  let reserved := protectedNames.map Text.lower
  separateAliases reserved (giveAliases reserved imports)

end Imports

end Schemata
