import Schemata.Text.Utf8
import Schemata.Text.Number

/-!
# Parts of JSON

What can stand at the start of a text in JSON: blanks, words, texts in quotes, whole numbers. A
scanner takes a part off the text and returns what remains.
-/

namespace Schemata.Json

def isBlank (c : Char) : Bool :=
  c == ' ' || c == '\n' || c == '\t' || c == '\r'

def skipBlanks (cs : List Char) : List Char :=
  cs.dropWhile isBlank

/-- What follows a word, if the text starts with it. -/
def word? (word : String) (cs : List Char) : Option (List Char) :=
  if word.toList.isPrefixOf cs then some (cs.drop word.length) else none

/-- How strictly texts are taken. -/
structure TextRules where
  /-- Characters that are no digits count as zero where four digits in base sixteen are due. -/
  laxDigits : Bool := false
  /-- A backslash may stand before an apostrophe. -/
  apostrophes : Bool := false
  /-- Control characters may stand in a text. -/
  controls : Bool := true
  /-- The mark for what is no character is taken for three bytes that form none, so it counts three
  times. -/
  tripled : Bool := false

def hexValue? (c : Char) : Option Nat :=
  let n := c.toNat
  if '0' ≤ c ∧ c ≤ '9' then some (n - '0'.toNat)
  else if 'a' ≤ c ∧ c ≤ 'f' then some (n - 'a'.toNat + 10)
  else if 'A' ≤ c ∧ c ≤ 'F' then some (n - 'A'.toNat + 10)
  else none

/-- The value of digits in base sixteen. -/
def hexNumber? (rules : TextRules) (digits : List Char) : Option Nat :=
  let value? := fun c => if rules.laxDigits then some ((hexValue? c).getD 0) else hexValue? c
  digits.foldlM (fun n c => (value? c).map (n * 16 + ·)) 0

/-- The character of a unit; half of a pair alone stands for no character. -/
def ofUnit (n : Nat) : Char :=
  if 0xD800 ≤ n ∧ n < 0xE000 then Text.replacement else Char.ofNat n

/-- The character that two units form as a pair. -/
def ofPair? (high low : Nat) : Option Char :=
  if 0xD800 ≤ high ∧ high < 0xDC00 ∧ 0xDC00 ≤ low ∧ low < 0xE000 then
    some (Char.ofNat (0x10000 + (high - 0xD800) * 0x400 + (low - 0xDC00)))
  else none

/-- The character that a letter after a backslash stands for. -/
def escape? (rules : TextRules) (c : Char) : Option Char :=
  match c with
  | '"' => some '"'
  | '\\' => some '\\'
  | '/' => some '/'
  | 'b' => some (Char.ofNat 0x08)
  | 'f' => some (Char.ofNat 0x0C)
  | 'n' => some '\n'
  | 'r' => some '\r'
  | 't' => some '\t'
  | '\x27' => if rules.apostrophes then some c else none
  | _ => none

/-- A part of a text in quotes. -/
inductive Piece where
  /-- A unit of sixteen bits, by its number. -/
  | unit (n : Nat)
  /-- A character that is written with a backslash. -/
  | escaped (c : Char)
  | literal (c : Char)
deriving DecidableEq, Repr

/-- How many characters a piece is written with. -/
def Piece.width : Piece → Nat
  | unit _ => 6
  | escaped _ => 2
  | literal _ => 1

/-- Reads the pieces of a text up to its closing quote. -/
def pieces? (rules : TextRules) : List Char → Option (List Piece × List Char)
  | [] => none
  | '"' :: rest => some ([], rest)
  | '\\' :: 'u' :: a :: b :: c :: d :: rest => do
    let n ← hexNumber? rules [a, b, c, d]
    let (pieces, rest) ← pieces? rules rest
    pure (.unit n :: pieces, rest)
  | '\\' :: e :: rest => do
    let c ← escape? rules e
    let (pieces, rest) ← pieces? rules rest
    pure (.escaped c :: pieces, rest)
  | c :: rest =>
    if c.toNat < 0x20 && !rules.controls then none
    else do
      let (pieces, rest) ← pieces? rules rest
      pure (.literal c :: pieces, rest)

/-- The characters for which pieces stand, given the half of a pair before them. -/
def joined (rules : TextRules) : Option Nat → List Piece → List Char
  | none, [] => []
  | some n, [] => [ofUnit n]
  | none, .unit n :: rest => joined rules (some n) rest
  | some high, .unit n :: rest =>
    match ofPair? high n with
    | some c => c :: joined rules none rest
    | none => ofUnit high :: joined rules (some n) rest
  | half, .escaped c :: rest => (half.map ofUnit).toList ++ c :: joined rules none rest
  | half, .literal c :: rest =>
    let written := if c == Text.replacement && rules.tripled then [c, c, c] else [c]
    (half.map ofUnit).toList ++ written ++ joined rules none rest

/-- Reads a text behind its opening quote. -/
def text? (rules : TextRules) (cs : List Char) : Option (List Char × List Char) :=
  (pieces? rules cs).map fun (pieces, rest) => (joined rules none pieces, rest)

def numberOf (digits : List Char) : Nat :=
  digits.foldl (fun n c => n * 10 + (c.toNat - '0'.toNat)) 0

/-- A number of up to nineteen digits, as far as it fits in 64 bits. -/
def word64? (negative : Bool) (digits : List Char) : Option Int :=
  let n : Int := numberOf digits
  if digits.isEmpty || 19 < digits.length then none
  else some (Word64.wrap (if negative then -n else n))

/-- Reads a whole number. A zero stands alone, unless there is a sign before it. -/
def int64? (cs : List Char) : Option (Int × List Char) :=
  match cs with
  | '-' :: rest =>
    let (digits, rest) := rest.span Char.isDigit
    (word64? true digits).map (·, rest)
  | '0' :: rest => some (0, rest)
  | cs =>
    let (digits, rest) := cs.span Char.isDigit
    (word64? false digits).map (·, rest)

/-- Splits a text behind a closing quote. -/
def pastText : List Char → Option (List Char × List Char)
  | [] => none
  | '"' :: rest => some (['"'], rest)
  | '\\' :: c :: rest => (pastText rest).map fun (raw, rest) => ('\\' :: c :: raw, rest)
  | c :: rest => (pastText rest).map fun (raw, rest) => (c :: raw, rest)

/-- Splits a text behind the bracket that closes the last of `depth` open ones. -/
def pastBrackets (opening closing : Char) : Nat → Nat → List Char →
    Option (List Char × List Char)
  | 0, _, _ => none
  | _, _, [] => none
  | fuel + 1, depth, c :: rest =>
    let go := fun depth => (pastBrackets opening closing fuel depth rest).map fun (raw, rest) =>
      (c :: raw, rest)
    if c == closing then (if depth ≤ 1 then some ([c], rest) else go (depth - 1))
    else if c == opening then go (depth + 1)
    else if c == '"' then do
      let (quoted, rest) ← pastText rest
      let (raw, rest) ← pastBrackets opening closing fuel depth rest
      pure (c :: quoted ++ raw, rest)
    else go depth

def isNumeric (c : Char) : Bool :=
  c.isDigit || c == '.' || c == 'e' || c == 'E' || c == '+' || c == '-'

/-- Splits a text behind its first value. What stands before a value that can be told by its first
character belongs to it. -/
def pastValue : List Char → Option (List Char × List Char)
  | [] => none
  | c :: rest =>
    let word := fun w => (word? w (c :: rest)).map fun rest => (w.toList, rest)
    match c with
    | '\x7b' => (pastBrackets '\x7b' '\x7d' (rest.length + 1) 1 rest).map fun (raw, rest) =>
        (c :: raw, rest)
    | '[' => (pastBrackets '[' ']' (rest.length + 1) 1 rest).map fun (raw, rest) =>
        (c :: raw, rest)
    | '"' => (pastText rest).map fun (raw, rest) => (c :: raw, rest)
    | 't' => word "true"
    | 'f' => word "false"
    | 'n' => word "null"
    | _ =>
      if c.isDigit || c == '-' then
        let (digits, rest) := rest.span isNumeric
        some (c :: digits, rest)
      else (pastValue rest).map fun (raw, rest) => (c :: raw, rest)

/-- The text that a value in quotes stands for. -/
def unquote? (raw : List Char) : Option (List Char) :=
  match raw with
  | '"' :: cs =>
    match text? { apostrophes := true, controls := false } cs with
    | some (content, []) => some content
    | _ => none
  | _ => none

end Schemata.Json
