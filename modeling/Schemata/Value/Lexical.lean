import Schemata.Model.Native
import Schemata.Text.Split
import Schemata.Text.Double

/-!
# Lexical forms of values

Which texts are values of a kind. A text is taken without the blanks at its ends. Kinds without
rules of their own take any text.
-/

namespace Schemata.Lexical

open Double

/-- The digits that a base mark admits, and what follows the mark. -/
def afterBaseMark : List Char → (Char → Bool) × List Char
  | '0' :: 'b' :: cs | '0' :: 'B' :: cs => (fun c => c == '0' || c == '1', cs)
  | '0' :: 'o' :: cs | '0' :: 'O' :: cs => (fun c => '0' ≤ c && c ≤ '7', cs)
  | cs => (Char.isDigit, cs)

/-- Digits with at most one point after an optional sign; a mark makes them binary or octal. -/
def isDecimal (cs : List Char) : Bool :=
  let (isDigit, body) := afterBaseMark (afterSign cs)
  match mantissa? isDigit body with
  | some (_, _, []) => true
  | _ => false

/-- The words for infinity, with an optional sign, and for what is no number, in any case. -/
def isSpecial (cs : List Char) : Bool :=
  let word := fun (cs : List Char) => String.ofList (cs.map Char.toLower)
  word cs == "nan" || word (afterSign cs) == "inf" || word (afterSign cs) == "infinity"

/-- What follows the mark of a hexadecimal number, if it has one. -/
def afterHexMark? : List Char → Option (List Char)
  | '0' :: 'x' :: c :: cs | '0' :: 'X' :: c :: cs => some (c :: cs)
  | _ => none

/-- A number in the range of doubles, decimal or hexadecimal, or a special word. Underscores may
separate digits, and a hexadecimal mark from a digit. -/
def isDouble (cs : List Char) : Bool :=
  if isSpecial cs then true
  else
    let body := afterSign cs
    match afterHexMark? body with
    | some digits =>
      underscoresFit isHexDigit '0' digits &&
        ((hexParts? (digits.filter (· != '_'))).any fun (value, e) => inRange 2 value e)
    | none =>
      underscoresFit Char.isDigit '^' body &&
        ((decimalParts? (body.filter (· != '_'))).any fun (value, e) => inRange 10 value e)

/-- Whether a text is a value of a kind. -/
def accepts (kind : ValueKind) (text : String) : Bool :=
  let s := Text.trim text
  match kind with
  | .boolean => ["true", "false", "1", "0"].contains s
  | .integer => isInteger s.toList
  | .float => ["INF", "+INF", "-INF", "NaN"].contains s || isDouble s.toList
  | .decimal => isDecimal s.toList
  | _ => true

end Schemata.Lexical
