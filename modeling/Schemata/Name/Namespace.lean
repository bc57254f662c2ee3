import Schemata.Name.Location
import Schemata.Name.Uri
import Schemata.Name.Words
import Schemata.Text.Split

/-!
# Module segments of a namespace

A namespace with a host gives the parts of the host backwards, without `www`, and then the parts of
the path without its extension; a `urn` gives what stands between its colons; any other text is cut
at slashes and colons. Each part becomes a segment in snake case.
-/

namespace Schemata.Name

/-- The parts of a namespace as they are written. -/
def namespaceParts (ns : String) : List (List Char) :=
  match Uri.parse? ns with
  | some uri =>
    if !uri.host.isEmpty then
      (Text.splitOn '.' uri.hostName).reverse.filter (· ≠ "www".toList) ++
        Text.splitOn '/' (Location.withoutExtension uri.path)
    else if uri.scheme = "urn".toList then Text.splitOn ':' uri.opaqueRest
    else loose
  | none => loose
where
  loose := Text.wordsBy (fun c => c == '/' || c == ':') ns.toList

/-- The module path segments of a namespace. -/
def namespaceSegments (ns : String) : List String :=
  if ns = "" then []
  else ((namespaceParts ns).map fun part => snakeCase (String.ofList part)).filter (· != "")

end Schemata.Name
