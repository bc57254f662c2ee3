import Schemata.Yaml.Cursor

/-!
# Scalars

How texts are written: plain, between single or double quotes, or as an indented block. Blanks
around a line end inside the first three do not count, and line ends are folded: one becomes a
blank, and of several the first is dropped. Reading fails with `none` where a text is malformed. Every
step takes a character, so the number of characters that remain is fuel enough.
-/

namespace Schemata.Yaml

-- ---------------------------------------------------------------------------
-- Gaps
-- ---------------------------------------------------------------------------

/-- Blanks and line ends between two words of a text. -/
structure Gap where
  /-- The blanks before the first line end. -/
  blanks : List Char := []
  /-- The first line end, if there is one; an escaped one leaves nothing. -/
  first : Option (Option Char) := none
  /-- The line ends behind the first. -/
  more : List Char := []

namespace Gap

def hasBreak (g : Gap) : Bool :=
  g.first.isSome

/-- What a gap amounts to. -/
def text (g : Gap) : List Char :=
  match g.first with
  | none => g.blanks
  | some (some '\n') => if g.more.isEmpty then [' '] else g.more
  | some first => first.toList ++ g.more

/-- The gap with one line end more. -/
def addBreak (g : Gap) (c : Char) : Gap :=
  if g.hasBreak then { g with more := g.more ++ [keptBreak c] }
  else { first := some (some (keptBreak c)) }

end Gap

/-- Reads a gap. A tab may not indent a line by less than `indent`. -/
def readGap (indent : Nat) : Nat → Gap → Cursor → Option (Gap × Cursor)
  | 0, g, c => some (g, c)
  | fuel + 1, g, c =>
    match c.peek with
    | none => some (g, c)
    | some x =>
      if isBreak x then readGap indent fuel (g.addBreak x) c.step
      else if isBlank x then
        if g.hasBreak then
          if x == '\t' && c.column < indent then none else readGap indent fuel g c.step
        else readGap indent fuel { g with blanks := g.blanks ++ [x] } c.step
      else some (g, c)

-- ---------------------------------------------------------------------------
-- Plain texts
-- ---------------------------------------------------------------------------

/-- Whether a plain text ends before the next character. -/
def endsPlain (flow : Bool) (c : Cursor) : Bool :=
  match c.peek with
  | none => true
  | some ':' => separates c.second
  | some x => isBlank x || isBreak x || (flow && (isFlowIndicator x || x == '?'))

/-- The characters up to a separator or an indicator. -/
def readWord (flow : Bool) : Nat → Cursor → List Char × Cursor
  | 0, c => ([], c)
  | fuel + 1, c =>
    match c.peek with
    | none => ([], c)
    | some x =>
      if endsPlain flow c then ([], c)
      else
        let (word, c) := readWord flow fuel c.step
        (x :: word, c)

/-- Reads a plain text. Outside brackets a line goes on with it only if it is indented by `indent`.
Returns the text, whether a line end follows it, and the cursor behind the gap that follows. -/
def readPlain (flow : Bool) (indent : Nat) : Nat → Cursor → Option (List Char × Bool × Cursor)
  | 0, c => some ([], false, c)
  | fuel + 1, c =>
    let (word, c) := readWord flow (fuel + 1) c
    if c.rest.isEmpty || !separates c.peek then some (word, false, c)
    else do
      let (gap, c) ← readGap indent (fuel + 1) {} c
      let stops := c.atMarker || c.peek == some '#' || endsPlain flow c ||
        (!flow && c.column < indent)
      if stops then pure (word, gap.hasBreak, c)
      else
        let (more, breaks, c) ← readPlain flow indent fuel c
        pure (word ++ gap.text ++ more, breaks, c)

/-- Whether a plain text can start at the cursor. -/
def startsPlain (flow : Bool) (c : Cursor) : Bool :=
  match c.peek with
  | none => false
  | some '-' => !c.second.any isBlank
  | some x =>
    if x == '?' || x == ':' then !flow && !separates c.second
    else !(isBlank x || isBreak x || isFlowIndicator x || x == '#' || x == '&' || x == '*' ||
      x == '!' || x == '|' || x == '>' || x == '\'' || x == '"' || x == '%' || x == '@' ||
      x.toNat == 0x60)

-- ---------------------------------------------------------------------------
-- Quoted texts
-- ---------------------------------------------------------------------------

/-- Reads a text between single quotes, behind the opening one. -/
def readSingle : Nat → Cursor → Option (List Char × Cursor)
  | 0, _ => none
  | fuel + 1, c =>
    match c.peek with
    | none => none
    | some x =>
      if c.atMarker then none
      else if x == '\'' then
        if c.second == some '\'' then
          (readSingle fuel (c.stepBy 2)).map fun (text, c) => ('\'' :: text, c)
        else some ([], c.step)
      else if isBlank x || isBreak x then do
        let (gap, c) ← readGap 0 (fuel + 1) {} c
        let (text, c) ← readSingle fuel c
        pure (gap.text ++ text, c)
      else (readSingle fuel c.step).map fun (text, c) => (x :: text, c)

/-- The character that a letter after a backslash stands for. -/
def escape? (c : Char) : Option Char :=
  match c with
  | '0' => some (Char.ofNat 0)
  | 'a' => some (Char.ofNat 7)
  | 'b' => some (Char.ofNat 8)
  | 't' | '\t' => some '\t'
  | 'n' => some '\n'
  | 'v' => some (Char.ofNat 11)
  | 'f' => some (Char.ofNat 12)
  | 'r' => some '\r'
  | 'e' => some (Char.ofNat 27)
  | ' ' => some ' '
  | '"' => some '"'
  | '\'' => some '\''
  | '\\' => some '\\'
  | 'N' => some (Char.ofNat 0x85)
  | '_' => some (Char.ofNat 0xA0)
  | 'L' => some (Char.ofNat 0x2028)
  | 'P' => some (Char.ofNat 0x2029)
  | _ => none

/-- How many digits a letter after a backslash announces. -/
def codeWidth? (c : Char) : Option Nat :=
  match c with
  | 'x' => some 2
  | 'u' => some 4
  | 'U' => some 8
  | _ => none

/-- The value of a digit of base sixteen. -/
def hexDigit? (c : Char) : Option Nat :=
  if c.isDigit then some (c.toNat - '0'.toNat)
  else if 'a' ≤ c ∧ c ≤ 'f' then some (c.toNat - 'a'.toNat + 10)
  else if 'A' ≤ c ∧ c ≤ 'F' then some (c.toNat - 'A'.toNat + 10)
  else none

/-- The value of digits of base sixteen. -/
def hexNumber? (digits : List Char) : Option Nat :=
  digits.foldlM (fun n c => (hexDigit? c).map (n * 16 + ·)) 0

/-- The character with a code. -/
def ofCode? (n : Nat) : Option Char :=
  if n.isValidChar then some (Char.ofNat n) else none

/-- Reads an escape from its backslash on. -/
def readEscape (c : Cursor) : Option (Char × Cursor) := do
  let letter ← c.second
  match codeWidth? letter with
  | none =>
    let x ← escape? letter
    pure (x, c.stepBy 2)
  | some width =>
    let digits := (c.rest.drop 2).take width
    let x ← (hexNumber? digits).bind ofCode?
    if digits.length < width then none else pure (x, c.stepBy (2 + width))

/-- Reads a text between double quotes, behind the opening one. -/
def readDouble : Nat → Cursor → Option (List Char × Cursor)
  | 0, _ => none
  | fuel + 1, c =>
    match c.peek with
    | none => none
    | some x =>
      if c.atMarker then none
      else if x == '"' then some ([], c.step)
      else if x == '\\' then
        if c.second.any isBreak then do
          let (gap, c) ← readGap 0 (fuel + 1) { first := some none } (c.stepBy 2)
          let (text, c) ← readDouble fuel c
          pure (gap.text ++ text, c)
        else do
          let (x, c) ← readEscape c
          let (text, c) ← readDouble fuel c
          pure (x :: text, c)
      else if isBlank x || isBreak x then do
        let (gap, c) ← readGap 0 (fuel + 1) {} c
        let (text, c) ← readDouble fuel c
        pure (gap.text ++ text, c)
      else (readDouble fuel c.step).map fun (text, c) => (x :: text, c)

-- ---------------------------------------------------------------------------
-- Blocks
-- ---------------------------------------------------------------------------

/-- What becomes of the line ends at the end of a block. -/
inductive Chomping where
  | strip
  | clip
  | keep
deriving DecidableEq

/-- A sign for the chomping, if there is one. -/
def readChomping (c : Cursor) : Chomping × Cursor :=
  match c.peek with
  | some '-' => (.strip, c.step)
  | some '+' => (.keep, c.step)
  | _ => (.clip, c)

/-- A digit for the indentation, if there is one; zero is none. -/
def readIndentation (c : Cursor) : Option (Option Nat × Cursor) :=
  match c.peek with
  | some '0' => none
  | some x => if x.isDigit then some (some (x.toNat - '0'.toNat), c.step) else some (none, c)
  | none => some (none, c)

/-- The signs behind the indicator of a block, in either order. -/
def readHeader (c : Cursor) : Option (Chomping × Option Nat × Cursor) := do
  let (chomping, d) := readChomping c
  let (indent, d) ← readIndentation d
  if chomping == .clip then
    let (chomping, d) := readChomping d
    pure (chomping, indent, d)
  else pure (chomping, indent, d)

/-- Skips blanks up to an indentation, or all of them. -/
def skipIndent (indent : Option Nat) (c : Cursor) : Cursor :=
  let ahead := (c.rest.takeWhile (· == ' ')).length
  c.stepBy (match indent with
    | some n => min ahead (n - c.column)
    | none => ahead)

/-- Skips empty lines of a block. Returns their line ends, and the widest indentation up to the
first line that is not empty. -/
def skipEmptyLines (indent : Option Nat) :
    Nat → List Char → Nat → Cursor → Option (List Char × Nat × Cursor)
  | 0, breaks, widest, c => some (breaks, widest, c)
  | fuel + 1, breaks, widest, c =>
    let c := skipIndent indent c
    let widest := max widest c.column
    match c.peek with
    | none => some (breaks, widest, c)
    | some x =>
      if x == '\t' && indent.all (c.column < ·) then none
      else if isBreak x then skipEmptyLines indent fuel (breaks ++ [keptBreak x]) widest c.step
      else some (breaks, widest, c)

/-- How far a block has been read: the line end that is due, those of the empty lines behind it, and
whether the line before starts with a blank. -/
structure BlockState where
  due : Option Char := none
  empty : List Char := []
  blank : Bool := false

/-- What ends a block. -/
def BlockState.ending (s : BlockState) : Chomping → List Char
  | .strip => []
  | .clip => s.due.toList
  | .keep => s.due.toList ++ s.empty

/-- What stands between two lines of a block, of which the second starts with a blank or not. -/
def BlockState.between (s : BlockState) (folds blank : Bool) : List Char :=
  if folds && !s.blank && !blank && s.due == some '\n' then
    if s.empty.isEmpty then [' '] else s.empty
  else s.due.toList ++ s.empty

/-- Reads the lines of a block. -/
def readBlockLines (folds : Bool) (chomping : Chomping) (indent : Nat) :
    Nat → BlockState → Cursor → Option (List Char × Cursor)
  | 0, s, c => some (s.ending chomping, c)
  | fuel + 1, s, c =>
    if c.column ≠ indent ∨ c.rest.isEmpty then some (s.ending chomping, c)
    else do
      let blank := c.peek.any isBlank
      let (line, d) := c.takeWhile fun x => !isBreak x
      let (empty, _, e) ← skipEmptyLines (some indent) (fuel + 1) [] 0 d.step
      let (more, e) ← readBlockLines folds chomping indent fuel
        { due := d.peek.map keptBreak, empty, blank } e
      pure (s.between folds blank ++ line ++ more, e)

/-- Reads a block behind its indicator; it belongs to what is indented by `parent`. -/
def readBlock (folds : Bool) (parent : Int) (fuel : Nat) (c : Cursor) :
    Option (List Char × Cursor) := do
  let (chomping, given, c) ← readHeader c
  let c := c.skipWhile isBlank
  let c := if c.peek == some '#' then c.skipLine else c
  if !endsLine c.peek then none
  else
    let c := c.step
    let least := max (parent + 1) 1
    let indent := given.map fun n => (max parent 0).toNat + n
    let (empty, widest, c) ← skipEmptyLines indent fuel [] 0 c
    let indent := indent.getD (max widest least.toNat)
    readBlockLines folds chomping indent fuel { empty } c

end Schemata.Yaml
