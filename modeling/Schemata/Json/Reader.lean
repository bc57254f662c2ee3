import Schemata.Json.Scan
import Schemata.Json.Value

/-!
# Reading JSON

The reader takes one value off a text and returns what remains of it.
-/

namespace Schemata.Json

/-- The digits before the point: a zero, or digits that start with none. -/
def wholeDigits (cs : List Char) : List Char × List Char :=
  match cs with
  | '0' :: rest => (['0'], rest)
  | cs => cs.span Char.isDigit

/-- A point and digits, if they follow. -/
def fraction? : List Char → Option (List Char × List Char)
  | '.' :: rest =>
    match rest.span Char.isDigit with
    | ([], _) => none
    | (digits, rest) => some ('.' :: digits, rest)
  | cs => some ([], cs)

/-- An exponent, if it follows. -/
def exponent? (cs : List Char) : Option (List Char × List Char) :=
  match cs with
  | e :: rest =>
    if e == 'e' || e == 'E' then
      let (sign, rest) := match rest with
        | '+' :: rest => (['+'], rest)
        | '-' :: rest => (['-'], rest)
        | rest => ([], rest)
      match rest.span Char.isDigit with
      | ([], _) => none
      | (digits, rest) => some (e :: sign ++ digits, rest)
    else some ([], cs)
  | [] => some ([], [])

/-- Reads a number. -/
def readNumber (cs : List Char) : Option (Json × List Char) := do
  let (negative, body) := match cs with
    | '-' :: rest => (true, rest)
    | cs => (false, cs)
  let (whole, rest) := wholeDigits body
  if whole.isEmpty then none
  else do
    let (frac, rest) ← fraction? rest
    let (exp, rest) ← exponent? rest
    if frac.isEmpty && exp.isEmpty then
      let n : Int := numberOf whole
      pure (.int (if negative then -n else n), rest)
    else
      let sign := if negative then ['-'] else []
      pure (.decimal (String.ofList (sign ++ whole ++ frac ++ exp)), rest)

/-- Reads a value that is neither a list nor an object. -/
def readLeaf (cs : List Char) : Option (Json × List Char) :=
  match cs with
  | '"' :: rest => (text? {} rest).map fun (s, rest) => (.text (String.ofList s), rest)
  | cs =>
    ((word? "null" cs).map fun rest => (.null, rest)).or <|
    ((word? "true" cs).map fun rest => (.bool true, rest)).or <|
    ((word? "false" cs).map fun rest => (.bool false, rest)).or (readNumber cs)

/-- Reads a key and the colon behind it. -/
def readKey (cs : List Char) : Option (String × List Char) := do
  let '"' :: cs := skipBlanks cs | none
  let (key, rest) ← text? {} cs
  let ':' :: rest := skipBlanks rest | none
  pure (String.ofList key, rest)

mutual

/-- Reads a value. -/
def readValue : Nat → List Char → Option (Json × List Char)
  | 0, _ => none
  | fuel + 1, cs =>
    match skipBlanks cs with
    | '[' :: cs =>
      match skipBlanks cs with
      | ']' :: rest => some (.list [], rest)
      | cs => (readItems fuel cs).map fun (items, rest) => (.list items, rest)
    | '\x7b' :: cs =>
      match skipBlanks cs with
      | '\x7d' :: rest => some (.object [], rest)
      | cs => (readMembers fuel cs).map fun (members, rest) => (.object members, rest)
    | cs => readLeaf cs

/-- Reads the items of a list from the first on. -/
def readItems : Nat → List Char → Option (List Json × List Char)
  | 0, _ => none
  | fuel + 1, cs => do
    let (item, rest) ← readValue fuel cs
    match skipBlanks rest with
    | ',' :: rest =>
      let (items, rest) ← readItems fuel rest
      pure (item :: items, rest)
    | ']' :: rest => pure ([item], rest)
    | _ => none

/-- Reads the members of an object from the first on. -/
def readMembers : Nat → List Char → Option (List (String × Json) × List Char)
  | 0, _ => none
  | fuel + 1, cs => do
    let (key, rest) ← readKey cs
    let (v, rest) ← readValue fuel rest
    match skipBlanks rest with
    | ',' :: rest =>
      let (members, rest) ← readMembers fuel rest
      pure ((key, v) :: members, rest)
    | '\x7d' :: rest => pure ([(key, v)], rest)
    | _ => none

end

/-- A bound on the depth of the recursion: every step but one in two takes a character off the text. -/
def bound (cs : List Char) : Nat :=
  2 * cs.length + 2

/-- The value of a text that holds one value and nothing else. -/
def parse? (s : String) : Option Json :=
  match readValue (bound s.toList) s.toList with
  | some (v, rest) => if (skipBlanks rest).isEmpty then some v else none
  | none => none

/-- The text of the value of the first member with a key, from a member on. -/
def findWritten : Nat → String → List Char → Option String
  | 0, _, _ => none
  | fuel + 1, wanted, cs => do
    let (key, start) ← readKey cs
    let (_, rest) ← readValue (bound start) start
    if key == wanted then
      pure (String.ofList (start.take (start.length - rest.length)))
    else
      let ',' :: rest := skipBlanks rest | none
      findWritten fuel wanted rest

/-- The value of a member of an object, as it is written. -/
def written? (s : String) (key : String) : Option String := do
  let '\x7b' :: cs := skipBlanks s.toList | none
  findWritten (cs.length + 1) key cs

end Schemata.Json
