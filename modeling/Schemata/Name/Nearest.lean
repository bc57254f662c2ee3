import Schemata.Name.Key

/-!
# Nearest names

The edit distance of two texts is the least number of insertions, deletions and substitutions of
single characters that turn one into the other. `suggest` offers the candidate whose key is nearest
to that of a misspelt name.
-/

namespace Schemata.Name

/-- The rest of a row of the table: `diag` and `left` are the entries to the upper left and to the
left, the list holds the row above from the next entry on. -/
def distanceRow (b : Char) : List Char → Nat → List Nat → Nat → List Nat
  | a :: as, diag, up :: above, left =>
    let entry := min (min (up + 1) (left + 1)) (diag + if a == b then 0 else 1)
    entry :: distanceRow b as up above entry
  | _, _, _, _ => []

/-- The row for one more character of the second text. -/
def nextRow (as : List Char) (row : List Nat) (b : Char) : List Nat :=
  match row with
  | [] => []
  | corner :: above => (corner + 1) :: distanceRow b as corner above (corner + 1)

/-- The distances of the prefixes of `as` from a growing prefix of `bs`, row by row. -/
def distanceChars (as bs : List Char) : Nat :=
  (bs.foldl (nextRow as) (List.range (as.length + 1))).getLastD 0

/-- The edit distance of two texts. The table has a column for each character of the shorter one. -/
def distance (a b : String) : Nat :=
  if b.toList.length < a.toList.length then distanceChars b.toList a.toList
  else distanceChars a.toList b.toList

/-- No candidate is offered beyond this distance. -/
def maxSuggestDistance : Nat := 3

/-- How far a candidate for a name may be: at most three, and at most half the length of the key. -/
def suggestLimit (name : String) : Nat :=
  min maxSuggestDistance ((key name).toList.length / 2)

/-- The better of the best candidate so far, with its distance, and one more. The name itself is no
candidate, and of several at one distance the first stays. -/
def nearer (name : String) (best : Option String × Nat) (candidate : String) : Option String × Nat :=
  if candidate == name then best
  else
    let d := distance (key name) (key candidate)
    if d < best.2 then (some candidate, d) else best

/-- The candidate, other than the name itself, whose key is nearest to the key of the name and not
beyond the limit, the earliest of several. -/
def suggest? (name : String) (candidates : List String) : Option String :=
  (candidates.foldl (nearer name) (none, suggestLimit name + 1)).1

end Schemata.Name
