import Schemata.Json.Value
import Schemata.Text.Letter
import Schemata.Text.Quoted
import Schemata.Text.Number
import Schemata.Yaml.Meaning

/-!
# Writing YAML

A value as an indented document, two blanks for each level, sequences indented below their keys. A
text is written plainly where it is read back as itself, else between single quotes, or between
double quotes where it has characters that must be escaped or stands for something else. A text of
several lines is written as a block.
-/

namespace Schemata.Yaml

/-- Whether a character is written as itself. -/
def isPrintable (c : Char) : Bool :=
  let n := c.toNat
  n == 0x0A || (0x20 ≤ n && n ≤ 0x7E) || (0xA0 ≤ n && n ≤ 0xFFFD && n != 0xFEFF)

def isLineEnd (c : Char) : Bool :=
  let n := c.toNat
  c == '\n' || c == '\r' || n == 0x85 || n == 0x2028 || n == 0x2029

/-- A number in upper case hexadecimal. -/
def upperHex (width n : Nat) : String :=
  String.ofList ((Text.hex width n).toList.map Char.toUpper)

/-- A character between double quotes, by its letter or its number. -/
def escape (c : Char) : String :=
  let n := c.toNat
  match c with
  | '"' => "\\\""
  | '\\' => "\\\\"
  | '\n' => "\\n"
  | '\r' => "\\r"
  | '\t' => "\\t"
  | _ =>
    if n == 0 then "\\0"
    else if n == 0x07 then "\\a"
    else if n == 0x08 then "\\b"
    else if n == 0x0B then "\\v"
    else if n == 0x0C then "\\f"
    else if n == 0x1B then "\\e"
    else if n == 0x85 then "\\N"
    else if n == 0xA0 then "\\_"
    else if n == 0x2028 then "\\L"
    else if n == 0x2029 then "\\P"
    else if n ≤ 0xFF then "\\x" ++ upperHex 2 n
    else if n ≤ 0xFFFF then "\\u" ++ upperHex 4 n
    else "\\U" ++ upperHex 8 n

/-- A text between double quotes. One that starts with a byte order mark has no character written as
itself. -/
def doubleQuoted (s : String) : String :=
  let marked := s.toList.head? == some (Char.ofNat 0xFEFF)
  let plain := fun c => isPrintable c && !isLineEnd c && c != '"' && c != '\\' && !marked
  "\"" ++ String.join (s.toList.map fun c => if plain c then c.toString else escape c) ++ "\""

def blanks (n : Nat) : String :=
  String.ofList (List.replicate n ' ')

/-- Characters of which those behind a line end are indented, except other line ends; `fresh` says that
a line end stands before them. -/
def indentLines (indent : Nat) : Bool → List Char → List Char
  | _, [] => []
  | fresh, c :: rest =>
    if isLineEnd c then c :: indentLines indent true rest
    else (if fresh then List.replicate indent ' ' else []) ++ c :: indentLines indent false rest

/-- A text between single quotes, its lines indented. -/
def singleQuoted (indent : Nat) (s : String) : String :=
  let doubled := s.toList.flatMap fun c => if c == '\x27' then [c, c] else [c]
  "\x27" ++ String.ofList (indentLines indent false doubled) ++ "\x27"

def startIndicators : List Char :=
  ['#', ',', '[', ']', '\x7b', '\x7d', '&', '*', '!', '|', '>', '\'', '"', '%', '@', Char.ofNat 0x60]

/-- Whether one of the characters of a text, after the first, is an indicator where it stands. -/
def hasIndicator : Char → List Char → Bool
  | _, [] => false
  | before, c :: rest =>
    let spaced := rest.head?.all fun x => x == ' ' || x == '\t'
    (c == ':' && spaced) || (c == '#' && (before == ' ' || before == '\t' || isLineEnd before)) ||
      hasIndicator c rest

/-- Whether the first character of a text is an indicator. -/
def startsWithIndicator (cs : List Char) : Bool :=
  match cs with
  | [] => false
  | c :: rest =>
    let spaced := rest.head?.all fun x => x == ' ' || x == '\t'
    startIndicators.contains c || ((c == '?' || c == ':' || c == '-') && spaced) ||
      ['-', '-', '-'].isPrefixOf cs || ['.', '.', '.'].isPrefixOf cs

/-- Whether a pair of neighbours in a text satisfies `p`. -/
def hasNeighbours (p : Char → Char → Bool) : List Char → Bool
  | a :: b :: rest => p a b || hasNeighbours p (b :: rest)
  | _ => false

/-- Whether a text needs escapes. -/
def needsEscapes (cs : List Char) : Bool :=
  cs.any (fun c => !isPrintable c) ||
    hasNeighbours (fun a b => (a == ' ' && isLineEnd b) || (isLineEnd a && b == ' ')) cs

/-- Whether the characters of a text can stand plainly. -/
def fitsPlain (cs : List Char) : Bool :=
  let edge := fun (c : Char) => c == ' ' || isLineEnd c
  !(cs.head?.any edge || cs.getLast?.any edge || cs.any isLineEnd || startsWithIndicator cs ||
    match cs with
    | [] => false
    | c :: rest => hasIndicator c rest)

/-- Whether a text can be written as a block. -/
def fitsBlock (cs : List Char) : Bool :=
  !(cs.getLast? == some ' ' || cs.any (fun c => c != '\t' && !isPrintable c) ||
    hasNeighbours (fun a b => a == ' ' && isLineEnd b) cs)

/-- The signs behind the indicator of a block: how far it is indented if that cannot be seen, and
what becomes of the line ends at its end. -/
def blockHeader (cs : List Char) : String :=
  let indent := if cs.head?.any fun c => c == ' ' || isLineEnd c then "2" else ""
  let chomping :=
    match cs.reverse with
    | [] => "-"
    | [c] => if isLineEnd c then "+" else "-"
    | a :: b :: _ => if !isLineEnd a then "-" else if isLineEnd b then "+" else ""
  "|" ++ indent ++ chomping

/-- A text as a block. The first line end of the text also ends the line of the header. -/
def block (indent : Nat) (cs : List Char) : String :=
  let start := if cs.head?.any isLineEnd then "" else "\n"
  blockHeader cs ++ start ++ String.ofList (indentLines indent true cs)

/-- A text, its lines indented by `indent`. -/
def writeText (indent : Nat) (s : String) : String :=
  let cs := s.toList
  if cs.contains '\n' then
    if fitsBlock cs then block indent cs else doubleQuoted s
  else if !standsForItself s || needsEscapes cs then doubleQuoted s
  else if fitsPlain cs then s
  else singleQuoted indent s

/-- Whether a key is written on the line of its value: it has one line of up to 128 bytes. -/
def isSimpleKey (s : String) : Bool :=
  !s.toList.any isLineEnd && s.utf8ByteSize ≤ 128

/-- Goes on in a column of the next line. -/
def newLine (column : Nat) (written : String) : String :=
  (if written.toList.getLast?.any isLineEnd then "" else "\n") ++ blanks column

/-- Lines that start in a column, behind the first. -/
def stack (column : Nat) : String → List String → String
  | first, [] => first
  | first, next :: rest => first ++ newLine column first ++ stack column next rest

/-- Lines that start in a column. -/
def stacked (column : Nat) : List String → String
  | [] => ""
  | first :: rest => stack column first rest

/-- A key and its value in a column. -/
def writePair (column : Nat) (key value : String) : String :=
  let written := writeText (column + 2) key
  if isSimpleKey key then written ++ ":" ++ value
  else "? " ++ written ++ newLine column written ++ ":" ++ value

mutual

/-- A value behind a key or a dash in the column `column`. -/
def writeValue (column : Nat) : Json → String
  | .null => " null"
  | .bool b => if b then " true" else " false"
  | .int n => " " ++ toString n
  | .decimal literal => " " ++ literal
  | .text s => " " ++ writeText (column + 2) s
  | .list [] => " []"
  | .list (item :: items) => stack (column + 2) "" (writeItems (column + 2) (item :: items))
  | .object [] => " \x7b\x7d"
  | .object (pair :: pairs) => stack (column + 2) "" (writePairs (column + 2) (pair :: pairs))

/-- The entries of a sequence in a column. -/
def writeItems (column : Nat) : List Json → List String
  | [] => []
  | .object (pair :: pairs) :: rest =>
    ("- " ++ stacked (column + 2) (writePairs (column + 2) (pair :: pairs))) ::
      writeItems column rest
  | item :: rest => ("-" ++ writeValue column item) :: writeItems column rest

/-- The pairs of a mapping in a column. -/
def writePairs (column : Nat) : List (String × Json) → List String
  | [] => []
  | (key, v) :: rest => writePair column key (writeValue column v) :: writePairs column rest

end

/-- A document that holds a mapping. -/
def document (pairs : List (String × Json)) : String :=
  let text := stacked 0 (writePairs 0 pairs)
  text ++ newLine 0 text

/-- The number of 64 bits that the digits at the start of a text form, continued from `start`, and how
many there are. A digit counts by its distance from zero. -/
def leadingNumber (start : Int) (cs : List Char) : Int × Nat :=
  let digits := cs.takeWhile Text.isDecimal
  let number := digits.foldl (fun n c => n * 10 + ((c.toNat : Int) - '0'.toNat)) start
  (Word64.wrap number, digits.length)

/-- Whether a key comes before another. Letters come after other characters, except behind digits,
and digits count as numbers; `before` holds the characters that both keys start with, the last
first. -/
def keyBefore (before : List Char) : List Char → List Char → Bool
  | [], b => !b.isEmpty
  | _ :: _, [] => false
  | a :: as, b :: bs =>
    if a == b then keyBefore (a :: before) as bs
    else
      let al := Text.isLetter a
      let bl := Text.isLetter b
      if al && bl then a < b
      else if al || bl then
        if before.head?.any Text.isDecimal then al else bl
      else
        let carried := (a == '0' || b == '0') &&
          (before.takeWhile Text.isDecimal).any (· != '0')
        let start := if carried then 1 else 0
        let (m, i) := leadingNumber start (a :: as)
        let (n, j) := leadingNumber start (b :: bs)
        if m ≠ n then m < n else if i ≠ j then i < j else a < b

/-- The pairs in the order of their keys. -/
def sortKeys (pairs : List (String × String)) : List (String × String) :=
  pairs.mergeSort fun p q => !keyBefore [] q.1.toList p.1.toList

end Schemata.Yaml
