import Schemata.Text.Letter
import Schemata.Text.Case

/-!
# Name keys and free names

Two names are in conflict when their keys agree. The key of a name is its letters and digits in
small letters; all else separates. `unique` and `nextFree` find a name whose key is not taken and
take it.
-/

namespace Schemata.Name

/-- A separator is neither a letter nor a digit. -/
def isSeparator (c : Char) : Bool :=
  !Text.isLetter c && !Text.isDecimal c

/-- The letters and digits of a name in small letters. -/
def key (s : String) : String :=
  String.ofList ((s.toList.filter (!isSeparator ·)).map Text.lowerChar)

/-- The `n`-th alternative of a name. -/
def numbered (name : String) (n : Nat) : String :=
  name ++ "_" ++ toString n

/-- The first alternative, from the `n`-th on, whose key is not taken. -/
def freeFrom (name : String) (taken : List String) : Nat → Nat → String
  | 0, n => numbered name n
  | tries + 1, n =>
    if key (numbered name n) ∈ taken then freeFrom name taken tries (n + 1) else numbered name n

/-- The first alternative of a name whose key is not taken, and the keys with that one taken.
Different alternatives have different keys, so one try more than there are keys suffices. -/
def nextFree (name : String) (taken : List String) : String × List String :=
  let free := freeFrom name taken taken.length 1
  (free, key free :: taken)

/-- The name itself if its key is not taken, else its first free alternative. -/
def unique (name : String) (taken : List String) : String × List String :=
  if key name ∈ taken then nextFree name taken else (name, key name :: taken)

end Schemata.Name
