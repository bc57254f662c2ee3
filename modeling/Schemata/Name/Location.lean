import Schemata.Text.Split

/-!
# Locations and module paths

A location is a path with slashes or backslashes, with or without a scheme. `Location.path` brings
it into normal form: no scheme, slashes only, and no empty, `.` or avoidable `..` element. A module
path is a list of segments joined by dots.
-/

namespace Schemata.Location

/-- Takes one element of a path onto the elements before it, latest first. -/
def step (rooted : Bool) (above : List (List Char)) (element : List Char) : List (List Char) :=
  if element = [] ∨ element = ['.'] then above
  else if element = ['.', '.'] then
    match above with
    | [] => if rooted then [] else [element]
    | last :: rest => if last = ['.', '.'] then element :: above else rest
  else element :: above

/-- The shortest path that names the same place; the empty path is `.`. -/
def clean (path : List Char) : List Char :=
  let rooted := path.head? == some '/'
  let elements := ((Text.splitOn '/' path).foldl (step rooted) []).reverse
  let joined := (elements.intersperse ['/']).flatten
  if rooted then '/' :: joined else if joined.isEmpty then ['.'] else joined

/-- The last element of a path. -/
def base (path : List Char) : List Char :=
  if path.isEmpty then ['.']
  else
    let trimmed := (path.reverse.dropWhile (· == '/')).reverse
    if trimmed.isEmpty then ['/'] else (Text.splitOn '/' trimmed).getLastD []

/-- All before the last element of a path, in normal form. -/
def dir (path : List Char) : List Char :=
  match Text.cutLast? '/' path with
  | some (before, _) => clean (before ++ ['/'])
  | none => clean []

/-- The end of the last element from its last dot on, if it has one. -/
def extension (path : List Char) : List Char :=
  match Text.cutLast? '.' ((Text.splitOn '/' path).getLastD []) with
  | some (_, suffix) => '.' :: suffix
  | none => []

/-- A path without its extension. -/
def withoutExtension (path : List Char) : List Char :=
  path.take (path.length - (extension path).length)

/-- The path of a location: what follows the first `://`, in normal form. -/
def path (location : String) : List Char :=
  let cs := location.toList
  let rest := (Text.afterFirst? "://".toList cs).getD cs
  clean (rest.map fun c => if c == '\\' then '/' else c)

/-- The directories that lead to a location. -/
def directories (location : String) : List String :=
  let d := dir (path location)
  if d = ['.'] ∨ d = ['/'] then []
  else
    let bare := (((d.dropWhile (· == '/')).reverse).dropWhile (· == '/')).reverse
    (Text.splitOn '/' bare).map String.ofList

/-- The file name of a location without its extension. -/
def stem (location : String) : String :=
  String.ofList (withoutExtension (base (path location)))

/-- The longest list of segments that every path starts with; nothing when there is no path. -/
def commonStart : List (List String) → List String
  | [] => []
  | first :: rest => rest.foldl shared first
where
  shared : List String → List String → List String
    | a :: as, b :: bs => if a == b then a :: shared as bs else []
    | _, _ => []

end Schemata.Location

namespace Schemata.ModulePath

/-- The non-empty parts, joined by dots. -/
def join (parts : List String) : String :=
  String.intercalate "." (parts.filter (· != ""))

/-- The last segment. -/
def base (path : String) : String :=
  match Text.cutLast? '.' path.toList with
  | some (_, last) => String.ofList last
  | none => path

/-- All before the last segment. -/
def parent (path : String) : String :=
  match Text.cutLast? '.' path.toList with
  | some (before, _) => String.ofList before
  | none => ""

end Schemata.ModulePath
