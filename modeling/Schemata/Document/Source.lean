import Schemata.Model.Status
import Schemata.Model.Tag
import Schemata.Name.QName

/-!
# Records in data formats

A data format is a `Source`: a monad that goes through the values of a text and answers what the next
value is. Records are read slot by slot: a record starts from what is known of it, and every member
changes what its slot says. Values that stand for nothing change nothing.

The formats differ in what they do about a value of the wrong kind: a strict one ends reading at
once, a patient one goes on and reports it in the end, so that any other complaint comes first.
-/

namespace Schemata

/-- Why a record cannot be read. -/
inductive ReadError where
  /-- The text is malformed, or a value is of the wrong kind. -/
  | unreadable
  | unknownTag (word : String)
  | unknownStatus (word : String)
  | badName (cause : QName.ParseError)
  /-- A word that is none of the choices for `what`. -/
  | unknownChoice (what : String) (line : Nat) (word : String)
  /-- Nothing stands in the place of a name that has a namespace. -/
  | tornName
  /-- A mapping that takes in others has a list or a mapping for a key. -/
  | unfitKey
deriving DecidableEq, Repr

def ReadError.message : ReadError → String
  | unreadable => "malformed document"
  | unknownTag word => unknownTagMessage word
  | unknownStatus word => unknownStatusMessage word
  | badName cause => cause.message
  | unknownChoice what line word =>
    "line " ++ toString line ++ ": unknown " ++ what ++ " " ++ Text.quote word
  | tornName => "torn name"
  | unfitKey => "unfit key"

namespace Reads

/-- The slot of a record: its key and how the value of a member changes the record. -/
structure Slot (m : Type → Type) (α : Type) where
  key : String
  read : α → m α

/-- How a record treats keys: whether it cares for their case and refuses those it does not know. -/
structure Keys where
  exact : Bool := true
  closed : Bool := true

/-- A text that stands for something else, and its line. -/
structure Word where
  line : Nat
  text : String

end Reads

open Reads in
/-- How the values of a text are read. Each question takes the next value. An answer is missing if the
value stands for nothing, or if it is of the wrong kind and the format is patient. -/
class Source (m : Type → Type) where
  /-- Ends reading. -/
  refuse {α : Type} : ReadError → m α
  /-- Takes the next value only if it stands for nothing. -/
  nothing : m Bool
  text : m (Option String)
  bool : m (Option Bool)
  int : m (Option Int)
  /-- The text of a value that is written in code words. -/
  word : m (Option Word)
  /-- Whether nothing in the place of a word takes it back. -/
  resets : Bool
  /-- Whether the next value spells out the parts of a word; takes no value. -/
  spelledOut : m Bool
  /-- Reads a record, starting from what is known of it. -/
  record {α : Type} : Keys → List (Slot m α) → α → m α
  /-- Reads a list, given how an item is read from what is known of it; an item that reads as nothing
  is left out. -/
  list {α : Type} : (Option α → m (Option α)) → List α → m (List α)
  /-- Whether an item that stands for nothing is an item all the same. -/
  countsNothing : Bool
  /-- Reads texts by their keys. -/
  pairs : List (String × String) → m (List (String × String))

/-- Puts a pair into a list that is sorted by its keys; of two pairs with one key the later stays. -/
def insertPair (pairs : List (String × String)) (key value : String) : List (String × String) :=
  match pairs with
  | [] => [(key, value)]
  | p :: rest =>
    if key < p.1 then (key, value) :: p :: rest
    else if key = p.1 then (key, value) :: rest
    else p :: insertPair rest key value

namespace Reads

variable {m : Type → Type} [Monad m] [Source m] {α : Type}

def text (old : String) : m String :=
  return (← Source.text).getD old

def bool (old : Bool) : m Bool :=
  return (← Source.bool).getD old

def int (old : Int) : m Int :=
  return (← Source.int).getD old

/-- A part that may be unset, read from what is known of it. -/
def optional (read : Option α → m (Option α)) (old : Option α) : m (Option α) := do
  if ← Source.nothing then pure none else read old

def optionalInt (old : Option Int) : m (Option Int) :=
  optional (fun old => return (← Source.int).or old) old

def optionalText (old : Option String) : m (Option String) :=
  optional (fun old => return (← Source.text).or old) old

def settle : Except ReadError α → m α
  | .ok a => pure a
  | .error e => Source.refuse e

/-- A value that is written in code words, given what taking it back leaves. -/
def coded (parse : Word → Except ReadError α) (reset : α → Except ReadError α) (old : α) : m α := do
  match ← Source.word with
  | some word => settle (parse word)
  | none => if Source.resets m then settle (reset old) else pure old

/-- An item in whose place nothing leaves a hole, read from what is known of it. -/
def required (read : α → m α) (zero : α) (old : Option (Option α)) : m (Option (Option α)) := do
  if ← Source.nothing then pure (some none)
  else return some (some (← read (old.join.getD zero)))

/-- An item for which nothing leaves what is known, or which is then left out, as the format has
it. -/
def plain (read : α → m α) (zero : α) (old : Option α) : m (Option α) := do
  if Source.countsNothing m then return some (← read (old.getD zero))
  else if ← Source.nothing then pure none
  else return some (← read (old.getD zero))

end Reads

end Schemata
