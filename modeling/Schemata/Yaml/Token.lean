import Schemata.Text.Utf8
import Schemata.Yaml.Scalars

/-!
# Tokens

What a text consists of: scalars, indicators, names and directives, and the starts and ends of
collections that indentation implies. Names, tags and directives are read here.
-/

namespace Schemata.Yaml

inductive TokenKind where
  | streamStart
  | streamEnd
  | version (major minor : Nat)
  /-- An abbreviation for the start of tags. -/
  | abbreviation (handle expansion : String)
  | documentStart
  | documentEnd
  | blockSequence
  | blockMapping
  /-- The end of an indented collection. -/
  | blockEnd
  | openBracket
  | closeBracket
  | openBrace
  | closeBrace
  /-- The dash before an item. -/
  | entry
  | comma
  | key
  | value
  | anchor (name : String)
  /-- What stands for the node with an anchor. -/
  | reference (name : String)
  | tag (handle suffix : String)
  | scalar (quoted : Bool) (text : String)
deriving DecidableEq, Repr

/-- A token and the line it is on. -/
structure Token where
  kind : TokenKind
  line : Nat
deriving DecidableEq, Repr

/-- Reads the name of an anchor behind its indicator. -/
def readName (c : Cursor) : Option (String × Cursor) :=
  let (name, c) := c.takeWhile isWordChar
  let ends := separates c.peek || c.peek.any fun x =>
    x == '?' || x == ':' || x == ',' || x == ']' || x == '\x7d' || x == '%' || x == '@' ||
      x.toNat == 0x60
  if name.isEmpty || !ends then none else some (String.ofList name, c)

/-- The characters of a tag, escapes aside. -/
def isTagChar (c : Char) : Bool :=
  isWordChar c || ";/?:@&=+$,.!~*'()[]".toList.contains c

/-- How many bytes a character has whose first byte is given. -/
def byteCount? (b : Nat) : Option Nat :=
  if b < 0x80 then some 1
  else if b < 0xC0 then none
  else if b < 0xE0 then some 2
  else if b < 0xF0 then some 3
  else if b < 0xF8 then some 4
  else none

/-- A byte that is written as a percent sign and two digits. -/
def readByte (c : Cursor) : Option (Nat × Cursor) :=
  match c.rest with
  | '%' :: a :: b :: _ => (hexNumber? [a, b]).map fun n => (n, c.stepBy 3)
  | _ => none

/-- The bytes that continue a character. -/
def readContinuation : Nat → Cursor → Option (List Nat × Cursor)
  | 0, c => some ([], c)
  | n + 1, c => do
    let (b, c) ← readByte c
    if b < 0x80 || 0xC0 ≤ b then none
    else
      let (bytes, c) ← readContinuation n c
      pure (b :: bytes, c)

/-- Reads the body of a tag. -/
def readTagBody : Nat → Cursor → Option (List Char × Cursor)
  | 0, c => some ([], c)
  | fuel + 1, c =>
    match c.peek with
    | none => some ([], c)
    | some '%' => do
      let (b, c) ← readByte c
      let width ← byteCount? b
      let (bytes, c) ← readContinuation (width - 1) c
      let (body, c) ← readTagBody fuel c
      pure (Text.ofBytes (b :: bytes) ++ body, c)
    | some x =>
      if isTagChar x then (readTagBody fuel c.step).map fun (body, c) => (x :: body, c)
      else some ([], c)

/-- Reads the start of a tag: an exclamation mark, word characters, and perhaps another one. Returns
also whether there is another one. -/
def readHandle (c : Cursor) : Option (List Char × Bool × Cursor) :=
  if c.peek != some '!' then none
  else
    let (word, c) := c.step.takeWhile isWordChar
    if c.peek == some '!' then some ('!' :: word ++ ['!'], true, c.step)
    else some ('!' :: word, false, c)

/-- Reads a tag: between angle brackets, with a handle, or local. A lone exclamation mark has no
handle. -/
def readTag (c : Cursor) : Option (TokenKind × Cursor) := do
  let fuel := c.rest.length
  let (tag, c) ←
    if c.second == some '<' then do
      let (body, c) ← readTagBody fuel (c.stepBy 2)
      if body.isEmpty || c.peek != some '>' then none
      else pure (TokenKind.tag "" (String.ofList body), c.step)
    else do
      let (handle, closed, c) ← readHandle c
      let (body, c) ← readTagBody fuel c
      if closed then
        if body.isEmpty then none
        else pure (TokenKind.tag (String.ofList handle) (String.ofList body), c)
      else
        let suffix := handle.drop 1 ++ body
        if suffix.isEmpty then pure (TokenKind.tag "" "!", c)
        else pure (TokenKind.tag "!" (String.ofList suffix), c)
  if separates c.peek then pure (tag, c) else none

/-- A part of a version: one or two digits. -/
def readVersionPart (c : Cursor) : Option (Nat × Cursor) :=
  let (digits, c) := c.takeWhile Char.isDigit
  if digits.isEmpty || digits.length > 2 then none
  else some (digits.foldl (fun n d => n * 10 + (d.toNat - '0'.toNat)) 0, c)

/-- Reads the version of the language behind the name of its directive. -/
def readVersion (c : Cursor) : Option (TokenKind × Cursor) := do
  let (major, c) ← readVersionPart (c.skipWhile isBlank)
  if c.peek != some '.' then none
  else
    let (minor, c) ← readVersionPart c.step
    pure (.version major minor, c)

/-- Reads an abbreviation for tags behind the name of its directive. -/
def readAbbreviation (c : Cursor) : Option (TokenKind × Cursor) := do
  let (handle, closed, c) ← readHandle (c.skipWhile isBlank)
  if !(closed || handle == ['!']) || !c.peek.any isBlank then none
  else
    let (body, c) ← readTagBody c.rest.length (c.skipWhile isBlank)
    if body.isEmpty || !separates c.peek then none
    else pure (.abbreviation (String.ofList handle) (String.ofList body), c)

/-- Reads a directive from its percent sign on, with the line end behind it. -/
def readDirective (c : Cursor) : Option (TokenKind × Cursor) := do
  let (name, c) := c.step.takeWhile isWordChar
  if !separates c.peek then none
  else
    let (directive, c) ← match String.ofList name with
      | "YAML" => readVersion c
      | "TAG" => readAbbreviation c
      | _ => none
    let c := c.skipWhile isBlank
    let c := if c.peek == some '#' then c.skipLine else c
    if endsLine c.peek then pure (directive, c.step) else none

end Schemata.Yaml
