import Schemata.Name.Key

/-!
# Words of a name

A name is cut into words at its separators, where a capital follows a character that is none, and
before the last capital of a run that a small letter follows: `getXMLNode` has the words `get`,
`XML` and `Node`. The snake case of a name joins its words in small letters.
-/

namespace Schemata.Name

/-- Whether a word starts at `c`, which comes after `prev` and before `rest`. -/
def startsWord (prev c : Char) (rest : List Char) : Bool :=
  Text.isCapital c &&
    ((!Text.isCapital prev && !isSeparator prev) ||
      (Text.isCapital prev && (rest.head?.any Text.isSmall)))

/-- The word under way, if it has begun, before the words that follow it. -/
def close (word : List Char) (words : List (List Char)) : List (List Char) :=
  if word.isEmpty then words else word.reverse :: words

/-- The words of a name. `word` is the word under way, backwards, and `prev` the character before. -/
def wordsFrom : Option Char → List Char → List Char → List (List Char)
  | _, word, [] => close word []
  | prev, word, c :: rest =>
    if isSeparator c then close word (wordsFrom (some c) [] rest)
    else if prev.any (startsWord · c rest) then close word (wordsFrom (some c) [c] rest)
    else wordsFrom (some c) (c :: word) rest

/-- The words of a name as they are written. -/
def words (s : String) : List String :=
  (wordsFrom none [] s.toList).map String.ofList

/-- The words of a name in small letters. -/
def lowerWords (s : String) : List String :=
  (words s).map Text.lower

/-- The words in small letters, joined by underscores; after a `v` when an ASCII digit comes first. -/
def snakeCase (s : String) : String :=
  let joined := String.intercalate "_" (lowerWords s)
  if joined.toList.head?.any Char.isDigit then "v" ++ joined else joined

end Schemata.Name
