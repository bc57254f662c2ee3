/-!
# Walking through a text

A cursor stands at a place of a text: it has what remains of the text and knows where that is. The
classes of characters that the language is made of are here too.
-/

namespace Schemata.Yaml

def isBreak (c : Char) : Bool :=
  let n := c.toNat
  c == '\n' || c == '\r' || n == 0x85 || n == 0x2028 || n == 0x2029

def isBlank (c : Char) : Bool :=
  c == ' ' || c == '\t'

/-- Whether a character, or the end of the text, separates. -/
def separates : Option Char → Bool
  | none => true
  | some c => isBlank c || isBreak c

/-- Whether a line ends at a character, or at the end of the text. -/
def endsLine : Option Char → Bool
  | none => true
  | some c => isBreak c

/-- Whether a character may occur in a text at all. -/
def isAllowed (c : Char) : Bool :=
  let n := c.toNat
  n == 0x09 || n == 0x0A || n == 0x0D || (0x20 ≤ n && n ≤ 0x7E) || n == 0x85 ||
    (0xA0 ≤ n && n ≤ 0xFFFD) || 0x10000 ≤ n

/-- The mark that may stand at the start of a line, where it does not count. -/
def isByteOrderMark (c : Char) : Bool :=
  c.toNat == 0xFEFF

/-- The characters of names. -/
def isWordChar (c : Char) : Bool :=
  c.isAlphanum || c == '_' || c == '-'

def isFlowIndicator (c : Char) : Bool :=
  c == ',' || c == '[' || c == ']' || c == '\x7b' || c == '\x7d'

/-- How a line end is kept in a text: as a line feed, unless it is a separator of Unicode. -/
def keptBreak (c : Char) : Char :=
  if c.toNat == 0x2028 || c.toNat == 0x2029 then c else '\n'

structure Cursor where
  rest : List Char
  /-- How many characters are behind. -/
  index : Nat := 0
  line : Nat := 1
  column : Nat := 0
  /-- Whether nothing but blanks has been read since the last line end, if there was one. -/
  afterBreak : Bool := false

namespace Cursor

def peek (c : Cursor) : Option Char :=
  c.rest.head?

/-- The character after the next. -/
def second (c : Cursor) : Option Char :=
  c.rest[1]?

def newLine (c : Cursor) (width : Nat) : Cursor :=
  { rest := c.rest.drop width, index := c.index + width, line := c.line + 1, afterBreak := true }

/-- The cursor behind the next character; the two characters of a line end count as one. -/
def step (c : Cursor) : Cursor :=
  match c.rest with
  | [] => c
  | '\r' :: '\n' :: _ => c.newLine 2
  | x :: rest =>
    if isBreak x then c.newLine 1
    else
      { c with rest, index := c.index + 1, column := c.column + 1
               afterBreak := c.afterBreak && isBlank x }

/-- The cursor behind a number of characters. -/
def stepBy : Nat → Cursor → Cursor
  | 0, c => c
  | n + 1, c => stepBy n c.step

/-- The characters at the cursor for which `p` holds, which is to hold of no line end, and the cursor
behind them. -/
def takeWhile (p : Char → Bool) (c : Cursor) : List Char × Cursor :=
  let taken := c.rest.takeWhile p
  (taken, c.stepBy taken.length)

/-- The cursor behind the characters for which `p` holds. -/
def skipWhile (p : Char → Bool) (c : Cursor) : Cursor :=
  (c.takeWhile p).2

/-- The cursor at the end of the line. -/
def skipLine (c : Cursor) : Cursor :=
  c.skipWhile fun x => !isBreak x

/-- Whether the text goes on with the given characters and a separator. -/
def startsWith (word : String) (c : Cursor) : Bool :=
  word.toList.isPrefixOf c.rest && separates (c.rest.drop word.length).head?

/-- Whether there is a document marker at the cursor. -/
def atMarker (c : Cursor) : Bool :=
  c.column == 0 && (c.startsWith "---" || c.startsWith "...")

end Cursor

end Schemata.Yaml
