import Schemata.Document.Source
import Schemata.Json.Scan
import Schemata.Lists.Groups

/-!
# Records in JSON

JSON is read from its text as far as the records ask: a text ends at the first character with the
number zero, and what stands behind the first value is not looked at. The format is strict: the
first fault ends reading.
-/

namespace Schemata

/-- How far reading JSON may go. -/
structure JsonLimits where
  /-- How many more levels of nesting there may be. -/
  levels : Nat
  /-- The length of the text. -/
  size : Nat

/-- Reading JSON: the limits, and what remains of the text. -/
abbrev JsonReads := ReaderT JsonLimits (StateT (List Char) (Except ReadError))

namespace JsonReads

open Reads (Keys Slot Word)

variable {α : Type}

/-- Ends reading. -/
def refuse (e : ReadError) : JsonReads α :=
  fun _ _ => .error e

/-- Takes blanks, and what a scanner takes off the text. -/
def take (scan : List Char → Option (α × List Char)) : JsonReads α := do
  match scan (Json.skipBlanks (← get)) with
  | some (a, rest) =>
    set rest
    pure a
  | none => refuse .unreadable

/-- Takes blanks, and a character if it comes next. -/
def takeIf (c : Char) : JsonReads Bool :=
  take fun cs => match cs with
    | [] => some (false, [])
    | d :: rest => if d == c then some (true, rest) else some (false, cs)

/-- Takes a character that has to come next. -/
def expect (c : Char) : JsonReads Unit := do
  if ← takeIf c then pure () else refuse .unreadable

/-- Takes the word for nothing if its first letter comes next. -/
def nothing : JsonReads Bool :=
  take fun cs => match cs with
    | 'n' :: _ => (Json.word? "null" cs).map fun rest => (true, rest)
    | _ => some (false, cs)

/-- What a scanner takes off the text, unless there is nothing. -/
def unlessNothing (scan : List Char → Option (α × List Char)) : JsonReads (Option α) := do
  if ← nothing then pure none else return some (← take scan)

/-- Goes one level down. -/
def deeper (x : JsonReads α) : JsonReads α := fun limits =>
  match limits.levels with
  | 0 => refuse .unreadable limits
  | levels + 1 => x { limits with levels }

/-- How texts in documents are taken. -/
def textRules : Json.TextRules :=
  { laxDigits := true, tripled := true }

/-- A text in quotes. -/
def quoted (cs : List Char) : Option (String × List Char) := do
  let '"' :: cs := cs | none
  let (text, rest) ← Json.text? textRules cs
  pure (String.ofList text, rest)

def bool? (cs : List Char) : Option (Bool × List Char) :=
  ((Json.word? "true" cs).map (true, ·)).or ((Json.word? "false" cs).map (false, ·))

/-- The text of a value in code words: what is in quotes, or else the value as it is written. Lists,
objects and numbers without a sign are none. -/
def wordOf? (raw : List Char) : Option String :=
  match raw with
  | [] => none
  | c :: _ =>
    if c == '[' || c == '\x7b' || c.isDigit then none
    else some (String.ofList ((Json.unquote? raw).getD raw))

def word : JsonReads (Option Word) := do
  let raw ← take Json.pastValue
  if String.ofList raw == "null" then pure none
  else match wordOf? raw with
    | some text => pure (some { line := 1, text })
    | none => refuse .unreadable

/-- A key in small letters. -/
def folded (key : String) : String :=
  String.ofList (key.toList.map Char.toLower)

/-- The slot for which a key stands, where the case of keys matters. -/
def exactSlot? {m : Type → Type} (slots : List (Slot m α)) (key : String) : Option (Slot m α) :=
  slots.find? fun slot => key == slot.key || key == folded slot.key

/-- The slot for which a key stands, where their case does not matter: the first in the order of keys
that starts with the key, if the key is written with as many characters. -/
def looseSlot? {m : Type → Type} (slots : List (Slot m α)) (key : String) (width : Nat) :
    Option (Slot m α) :=
  let candidates := slots.filter fun slot => (folded key).toList.isPrefixOf (folded slot.key).toList
  let first := (candidates.mergeSort fun a b => !decide (folded b.key < folded a.key)).head?
  if key == "" then none else first.filter fun slot => slot.key.length ≤ width

/-- Takes a key in quotes; the answer also says how many characters it is written with. -/
def writtenKey (cs : List Char) : Option ((String × Nat) × List Char) := do
  let '"' :: cs := cs | none
  let (pieces, rest) ← Json.pieces? textRules cs
  pure ((String.ofList (Json.joined textRules none pieces), Lists.total (pieces.map (·.width))), rest)

/-- Reads members from the first on. -/
def members (keys : Keys) (slots : List (Slot JsonReads α)) : Nat → α → JsonReads α
  | 0, _ => refuse .unreadable
  | fuel + 1, a => do
    let (key, width) ← take writtenKey
    expect ':'
    let a ← match if keys.exact then exactSlot? slots key else looseSlot? slots key width with
      | some slot => slot.read a
      | none =>
        if keys.closed then refuse .unreadable
        else do
          let _ ← take Json.pastValue
          pure a
    if ← takeIf '\x7d' then pure a
    else
      expect ','
      members keys slots fuel a

def record (keys : Keys) (slots : List (Slot JsonReads α)) (old : α) : JsonReads α := deeper do
  if ← nothing then pure old
  else
    expect '\x7b'
    if ← takeIf '\x7d' then pure old
    else members keys slots ((← read).size + 1) old

/-- Reads items from the first on, each from what is known of it. -/
def items (item : Option α → JsonReads (Option α)) : Nat → List α → JsonReads (List α)
  | 0, _ => refuse .unreadable
  | fuel + 1, old => do
    let a ← item old.head?
    if ← takeIf ']' then pure a.toList
    else
      expect ','
      return a.toList ++ (← items item fuel old.tail)

def list (item : Option α → JsonReads (Option α)) (old : List α) : JsonReads (List α) := deeper do
  if ← nothing then pure []
  else
    expect '['
    if ← takeIf ']' then pure []
    else items item ((← read).size + 1) old

/-- Reads pairs from the first on; nothing stands for the empty text. -/
def pairItems : Nat → List (String × String) → JsonReads (List (String × String))
  | 0, _ => refuse .unreadable
  | fuel + 1, old => do
    let key ← unlessNothing quoted
    expect ':'
    let value ← unlessNothing quoted
    let pairs := insertPair old (key.getD "") (value.getD "")
    if ← takeIf '\x7d' then pure pairs
    else
      expect ','
      pairItems fuel pairs

def pairs (old : List (String × String)) : JsonReads (List (String × String)) := deeper do
  if ← nothing then pure []
  else
    expect '\x7b'
    if ← takeIf '\x7d' then pure old
    else pairItems ((← read).size + 1) old

instance : Source JsonReads where
  refuse := refuse
  nothing := nothing
  text := unlessNothing quoted
  bool := unlessNothing bool?
  int := unlessNothing Json.int64?
  word := word
  resets := true
  spelledOut := pure false
  record := record
  list := list
  countsNothing := true
  pairs := pairs

/-- How deep values may be nested. -/
def maxLevels : Nat := 10000

/-- Reads from a text, unless it is empty. One separator may stand in front, and the word for nothing
may lack its last letter if the text ends there. -/
def run (x : JsonReads α) (s : String) : Except ReadError (Option α) :=
  match Json.skipBlanks (s.toList.takeWhile (· != Char.ofNat 0)) with
  | [] => .ok none
  | c :: rest =>
    let cs := if c == ',' || c == ':' then rest else c :: rest
    if Json.skipBlanks cs == "nul".toList then .ok none
    else match x { levels := maxLevels, size := s.length } cs with
      | .ok (a, _) => .ok (some a)
      | .error e => .error e

end JsonReads

end Schemata
