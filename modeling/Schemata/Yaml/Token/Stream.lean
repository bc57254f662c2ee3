import Schemata.Yaml.Token

/-!
# The tokens of a text

Tokens are read from left to right. Outside brackets, indentation opens and closes collections, and
what turns out to be a key by the colon behind it gets its sign afterwards. So a token is given out
only when it is certain that no sign comes before it; besides, two more tokens are always read ahead.
A text that is malformed at some place gives the tokens that are certain before that place.
-/

namespace Schemata.Yaml

/-- A place where a key without a sign may start. -/
structure Candidate where
  possible : Bool := false
  /-- Whether there has to be a key. -/
  required : Bool := false
  /-- The number of the token at the place. -/
  number : Nat := 0
  index : Nat := 0
  line : Nat := 0
  column : Nat := 0

/-- A key ends on the line it starts on and is not too long. -/
def Candidate.isOver (k : Candidate) (c : Cursor) : Bool :=
  k.line < c.line || k.index + 1024 < c.index

/-- The state of reading tokens. -/
structure Lexing where
  cursor : Cursor
  /-- More than the length of the text. -/
  size : Nat
  /-- The tokens read so far, the last first, and how many they are. -/
  tokens : List Token := []
  count : Nat := 0
  /-- The column of the innermost indented collection, and those of the ones around it. -/
  indent : Int := -1
  indents : List Int := []
  /-- Whether a key without a sign may start at the cursor. -/
  keyAllowed : Bool := true
  /-- How many brackets are open. -/
  depth : Nat := 0
  /-- A candidate inside each pair of brackets, the innermost first, and one outside of all. -/
  candidates : List Candidate := [{}]
  /-- The numbers of tokens that are candidates for keys, with the depth of the brackets. -/
  awaited : List (Nat × Nat) := []

namespace Lexing

/-- How deep the nesting of brackets and of indented collections may be. -/
def maxDepth : Nat := 10000

def inFlow (s : Lexing) : Bool :=
  s.depth > 0

/-- Appends a token. -/
def push (s : Lexing) (kind : TokenKind) (line : Nat) : Lexing :=
  { s with tokens := ⟨kind, line⟩ :: s.tokens, count := s.count + 1 }

/-- Puts a token before the one with a number. -/
def insert (s : Lexing) (number : Nat) (kind : TokenKind) (line : Nat) : Lexing :=
  let behind := s.count - number
  { s with tokens := s.tokens.take behind ++ ⟨kind, line⟩ :: s.tokens.drop behind
           count := s.count + 1 }

/-- Appends a token for an indicator of some characters at the cursor. -/
def pushIndicator (s : Lexing) (kind : TokenKind) (width : Nat) : Lexing :=
  { s.push kind s.cursor.line with cursor := s.cursor.stepBy width }

-- ---------------------------------------------------------------------------
-- Keys without a sign
-- ---------------------------------------------------------------------------

/-- Gives up the innermost candidate; fails if there has to be a key. -/
def dropCandidate (s : Lexing) : Option Lexing :=
  match s.candidates with
  | k :: outer =>
    if !k.possible then some s
    else if k.required then none
    else some { s with candidates := { k with possible := false } :: outer
                       awaited := s.awaited.filter (·.1 != k.number) }
  | [] => some s

/-- Notices that a key may start at the cursor. -/
def noteCandidate (s : Lexing) : Option Lexing :=
  if !s.keyAllowed then some s
  else do
    let required := !s.inFlow && s.indent == (s.cursor.column : Int)
    let s ← s.dropCandidate
    let k : Candidate := { possible := true, required, number := s.count, index := s.cursor.index
                           line := s.cursor.line, column := s.cursor.column }
    some { s with candidates := k :: s.candidates.drop 1
                  awaited := (k.number, s.depth) :: s.awaited }

/-- The innermost candidate, if the text up to the cursor can be a key. Fails if there has to be a
key and cannot be one any more. -/
def candidate? (s : Lexing) : Option (Option Candidate) :=
  match s.candidates with
  | [] => some none
  | k :: _ =>
    if !k.possible then some none
    else if k.isOver s.cursor then if k.required then none else some none
    else some (some k)

-- ---------------------------------------------------------------------------
-- Indentation
-- ---------------------------------------------------------------------------

/-- Opens an indented collection if the column is further to the right than the last one. Its token
comes before the one with the given number. -/
def open? (s : Lexing) (column number : Nat) (kind : TokenKind) (line : Nat) : Option Lexing :=
  if s.inFlow || s.indent ≥ (column : Int) then some s
  else if s.indents.length ≥ maxDepth then none
  else
    let s := s.insert number kind line
    some { s with indent := column, indents := s.indent :: s.indents }

/-- Closes the collections that are indented further than a column. -/
def closeTo (s : Lexing) (column : Int) : Lexing :=
  if s.inFlow then s else go s.indents s
where
  go : List Int → Lexing → Lexing
    | [], s => s
    | outer :: rest, s =>
      if s.indent > column then
        go rest { s.push .blockEnd s.cursor.line with indent := outer, indents := rest }
      else s

-- ---------------------------------------------------------------------------
-- Between tokens
-- ---------------------------------------------------------------------------

/-- How far a comment that follows is looked for. -/
def commentWindow : Nat := 512

/-- Skips a comment, and the comments that follow on lines of their own. -/
def skipComments : Nat → Cursor → Cursor
  | 0, c => c
  | fuel + 1, c =>
    let c := c.skipLine
    let gap := ((c.rest.drop 1).take (commentWindow - 2)).takeWhile fun x => isBlank x || isBreak x
    if (c.rest.drop (1 + gap.length)).head? == some '#' then
      let c := go (gap.length + 1) (1 + gap.length) c
      skipComments fuel c
    else c
where
  /-- Walks over a number of characters, of which two may be one line end. -/
  go : Nat → Nat → Cursor → Cursor
    | 0, _, c => c
    | fuel + 1, width, c =>
      if width = 0 then c
      else
        let d := c.step
        go fuel (width - (d.index - c.index)) d

/-- Skips blanks, comments and line ends. Tabs are no blanks where a key may start outside brackets,
so they cannot indent. -/
def skipToToken : Nat → Lexing → Lexing
  | 0, s => s
  | fuel + 1, s =>
    let c := s.cursor
    let c := if c.column == 0 && c.peek.any isByteOrderMark then c.step else c
    let tabs := s.inFlow || !s.keyAllowed
    let c := c.skipWhile fun x => x == ' ' || (tabs && x == '\t')
    let c := if c.peek == some '#' then skipComments (fuel + 1) c else c
    if c.peek.any isBreak then
      skipToToken fuel { s with cursor := c.step, keyAllowed := s.keyAllowed || !s.inFlow }
    else { s with cursor := c }

/-- Skips the comment behind a token on its line. -/
def skipLineComment (s : Lexing) : Lexing :=
  let c := s.cursor
  let blanks := (c.rest.take (commentWindow - 1)).takeWhile isBlank
  if !c.afterBreak && (c.rest.drop blanks.length).head? == some '#' then
    { s with cursor := c.skipLine }
  else s

-- ---------------------------------------------------------------------------
-- Tokens
-- ---------------------------------------------------------------------------

/-- Ends all collections before the end of a document. -/
def closeAll (s : Lexing) : Option Lexing :=
  (s.closeTo (-1)).dropCandidate.map fun s => { s with keyAllowed := false }

def readStreamEnd (s : Lexing) : Option Lexing :=
  s.closeAll.map fun s => s.push .streamEnd s.cursor.line

def readDirectiveToken (s : Lexing) : Option Lexing := do
  let s ← s.closeAll
  let (kind, cursor) ← readDirective s.cursor
  pure { s.push kind s.cursor.line with cursor }

def readMarker (s : Lexing) (kind : TokenKind) : Option Lexing :=
  s.closeAll.map fun s => s.pushIndicator kind 3

def readOpening (s : Lexing) (kind : TokenKind) : Option Lexing := do
  let s ← s.noteCandidate
  if s.depth ≥ maxDepth then none
  else
    let s := { s with candidates := { number := s.count } :: s.candidates, depth := s.depth + 1
                      keyAllowed := true }
    pure (s.pushIndicator kind 1)

def readClosing (s : Lexing) (kind : TokenKind) : Option Lexing := do
  let s ← s.dropCandidate
  let s := match s.candidates with
    | k :: outer :: rest =>
      { s with candidates := outer :: rest, depth := s.depth - 1
               awaited := s.awaited.filter (·.1 != k.number) }
    | _ => s
  pure ({ s with keyAllowed := false }.pushIndicator kind 1)

def readComma (s : Lexing) : Option Lexing :=
  s.dropCandidate.map fun s => { s with keyAllowed := true }.pushIndicator .comma 1

def readEntry (s : Lexing) : Option Lexing := do
  if !s.inFlow && !s.keyAllowed then none
  else
    let s ← s.open? s.cursor.column s.count .blockSequence s.cursor.line
    let s ← s.dropCandidate
    pure ({ s with keyAllowed := true }.pushIndicator .entry 1)

def readKeySign (s : Lexing) : Option Lexing := do
  if !s.inFlow && !s.keyAllowed then none
  else
    let s ← s.open? s.cursor.column s.count .blockMapping s.cursor.line
    let s ← s.dropCandidate
    pure ({ s with keyAllowed := !s.inFlow }.pushIndicator .key 1)

/-- A colon: it makes the candidate a key, or follows a key with a sign. -/
def readColon (s : Lexing) : Option Lexing := do
  match ← s.candidate? with
  | some k =>
    let s := s.insert k.number .key k.line
    let s ← s.open? k.column k.number .blockMapping k.line
    let s := { s with candidates := { k with possible := false } :: s.candidates.drop 1
                      awaited := s.awaited.filter (·.1 != k.number), keyAllowed := false }
    pure (s.pushIndicator .value 1)
  | none =>
    if !s.inFlow && !s.keyAllowed then none
    else
      let s ← s.open? s.cursor.column s.count .blockMapping s.cursor.line
      let candidates := s.candidates.modifyHead fun k => { k with possible := false }
      pure ({ s with candidates, keyAllowed := !s.inFlow }.pushIndicator .value 1)

def readNameToken (s : Lexing) (kind : String → TokenKind) : Option Lexing := do
  let s ← s.noteCandidate
  let (name, cursor) ← readName s.cursor.step
  pure { s.push (kind name) s.cursor.line with cursor, keyAllowed := false }

def readTagToken (s : Lexing) : Option Lexing := do
  let s ← s.noteCandidate
  let (kind, cursor) ← readTag s.cursor
  pure { s.push kind s.cursor.line with cursor, keyAllowed := false }

def readBlockToken (s : Lexing) (folds : Bool) : Option Lexing := do
  let s ← s.dropCandidate
  let (text, cursor) ← readBlock folds s.indent s.size s.cursor.step
  pure { s.push (.scalar true (String.ofList text)) s.cursor.line with cursor, keyAllowed := true }

def readQuotedToken (s : Lexing) (read : Nat → Cursor → Option (List Char × Cursor)) :
    Option Lexing := do
  let s ← s.noteCandidate
  let (text, cursor) ← read s.size s.cursor.step
  pure { s.push (.scalar true (String.ofList text)) s.cursor.line with cursor, keyAllowed := false }

def readPlainToken (s : Lexing) : Option Lexing := do
  let s ← s.noteCandidate
  let indent := (s.indent + 1).toNat
  let (text, breaks, cursor) ← readPlain s.inFlow indent s.size s.cursor
  pure { s.push (.scalar false (String.ofList text)) s.cursor.line with cursor, keyAllowed := breaks }

/-- Reads the token at the cursor, which is neither a directive nor a document marker. -/
def readContent (s : Lexing) (x : Char) : Option Lexing :=
  let alone := separates s.cursor.second
  if x == '[' then s.readOpening .openBracket
  else if x == '\x7b' then s.readOpening .openBrace
  else if x == ']' then s.readClosing .closeBracket
  else if x == '\x7d' then s.readClosing .closeBrace
  else if x == ',' then s.readComma
  else if x == '-' && alone then s.readEntry
  else if x == '?' && (s.inFlow || alone) then s.readKeySign
  else if x == ':' && (s.inFlow || alone) then s.readColon
  else if x == '*' then s.readNameToken .reference
  else if x == '&' then s.readNameToken .anchor
  else if x == '!' then s.readTagToken
  else if x == '|' && !s.inFlow then s.readBlockToken false
  else if x == '>' && !s.inFlow then s.readBlockToken true
  else if x == '\'' then s.readQuotedToken readSingle
  else if x == '"' then s.readQuotedToken readDouble
  else if startsPlain s.inFlow s.cursor then s.readPlainToken
  else none

/-- Reads the next token, with the ends of collections before it. A dash keeps the comment behind
it. -/
def next (s : Lexing) : Option Lexing :=
  let s := s.skipToToken s.size
  let s := s.closeTo s.cursor.column
  match s.cursor.peek with
  | none => s.readStreamEnd
  | some x =>
    if s.cursor.column == 0 && x == '%' then s.readDirectiveToken
    else if s.cursor.column == 0 && s.cursor.startsWith "---" then s.readMarker .documentStart
    else if s.cursor.column == 0 && s.cursor.startsWith "..." then s.readMarker .documentEnd
    else (s.readContent x).map fun s =>
      if s.tokens.head?.any (·.kind == .entry) then s else s.skipLineComment

-- ---------------------------------------------------------------------------
-- Giving tokens out
-- ---------------------------------------------------------------------------

/-- How many tokens are read ahead of one that is given out. -/
def ahead : Nat := 2

/-- Whether the token with a number is certain; fails if it would have to be a key and cannot. -/
def certain? (s : Lexing) (number : Nat) : Option Bool :=
  if s.count ≤ number + ahead then some false
  else
    match s.awaited.lookup number with
    | none => some true
    | some depth =>
      match if depth ≤ s.depth then s.candidates[s.depth - depth]? else none with
      | none => some true
      | some k =>
        if !k.possible then some true
        else if k.isOver s.cursor then if k.required then none else some true
        else some false

/-- Gives tokens out from a number on while they are certain: the next number, and whether reading
can go on. -/
def giveOut (s : Lexing) : Nat → Nat → Nat × Bool
  | 0, number => (number, true)
  | fuel + 1, number =>
    match s.certain? number with
    | none => (number, false)
    | some false => (number, true)
    | some true => giveOut s fuel (number + 1)

/-- Reads tokens to the end of the text or to where it is malformed, and returns those that are given
out, of which `number` are already. -/
def run : Nat → Nat → Lexing → List Token
  | 0, number, s => s.tokens.reverse.take number
  | fuel + 1, number, s =>
    match s.giveOut (s.count + 1) number with
    | (number, false) => s.tokens.reverse.take number
    | (number, true) =>
      match s.next with
      | none => s.tokens.reverse.take number
      | some s =>
        if s.tokens.head?.any (·.kind == .streamEnd) then s.tokens.reverse else run fuel number s

end Lexing

/-- The tokens of a text, up to where it is malformed. A byte order mark in front is no part of it. -/
def tokens (text : List Char) : List Token :=
  let text := if text.head?.any isByteOrderMark then text.drop 1 else text
  if text.all isAllowed then
    let size := text.length + 2
    Lexing.run size 0 ({ cursor := { rest := text }, size : Lexing }.push .streamStart 1)
  else []

end Schemata.Yaml
