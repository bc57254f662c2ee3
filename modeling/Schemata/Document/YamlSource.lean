import Schemata.Document.Source
import Schemata.Text.Number
import Schemata.Yaml.Meaning

/-!
# Records in YAML

YAML is read from the nodes of its document. The format is patient: a value of the wrong kind is
passed over, and reported when all has been read. A reference is followed to its node, and a mapping
takes in the pairs of others with a merge key.
-/

namespace Schemata

/-- Where reading YAML stands. -/
structure YamlPlace where
  node : Yaml.Node
  anchors : Yaml.Anchors
  /-- The references that are being followed. -/
  active : List Nat := []
  /-- A bound on the depth of merged mappings. -/
  depth : Nat

/-- What has been noticed while reading YAML. -/
structure YamlProgress where
  /-- A value of the wrong kind. -/
  mismatch : Bool := false
  /-- How many nodes have been read. -/
  visits : Nat := 0
  /-- How many nodes have been read behind references. -/
  borrowed : Nat := 0

abbrev YamlReads := ReaderT YamlPlace (StateT YamlProgress (Except ReadError))

namespace YamlReads

open Reads (Keys Slot Word)

variable {α : Type}

/-- Ends reading. -/
def refuse (e : ReadError) : YamlReads α :=
  fun _ _ => .error e

/-- Passes over a value of the wrong kind. -/
def mismatch (old : α) : YamlReads α := do
  modify fun p => { p with mismatch := true }
  pure old

/-- Reads at a node. -/
def readAt (node : Yaml.Node) (x : YamlReads α) : YamlReads α :=
  withReader (fun place => { place with node }) x

/-- Whether too many of the nodes that have been read stand behind references: in large documents it
may be a tenth of them, in small ones nearly all. -/
def isInflated (p : YamlProgress) : Bool :=
  let (low, high) := (400000, 4000000)
  let share := if p.visits ≤ low then 99 * (high - low)
    else if high ≤ p.visits then 10 * (high - low)
    else 99 * (high - low) - 89 * (p.visits - low)
  100 < p.borrowed && 1000 < p.visits && share * p.visits < p.borrowed * 100 * (high - low)

/-- Counts a node. -/
def visit : YamlReads Unit := do
  let behind := !(← read).active.isEmpty
  modify fun p =>
    { p with visits := p.visits + 1, borrowed := if behind then p.borrowed + 1 else p.borrowed }
  if isInflated (← get) then refuse .unreadable else pure ()

/-- The node that a node stands for. -/
def target (node : Yaml.Node) : YamlReads Yaml.Node := do
  match node with
  | .reference _ _ anchor _ =>
    let some node := (← read).anchors.lookup anchor | refuse .unreadable
    pure node
  | node => pure node

/-- Reads the node that stands here. A reference that is being followed cannot be followed again. -/
def enter (x : Yaml.Node → YamlReads α) : YamlReads α := do
  visit
  let place ← read
  match place.node with
  | .reference _ occurrence _ _ =>
    if place.active.contains occurrence then refuse .unreadable
    else
      let node ← target place.node
      withReader (fun place => { place with node, active := occurrence :: place.active }) do
        visit
        x node
  | node => x node

/-- A scalar: its line, its text and what it stands for. -/
structure Leaf where
  line : Nat
  text : String
  meaning : Yaml.Meaning

/-- The scalar that a node is, unless the node is of another kind or stands for nothing. A text that
does not fit its tag ends reading. Where a tag has the text decoded, that is the text. -/
def leafOf (node : Yaml.Node) : YamlReads (Option Leaf) := do
  match node with
  | .scalar line tag quoted text =>
    match Yaml.Node.scalarMeaning? tag quoted text with
    | none => refuse .unreadable
    | some .null => pure none
    | some (.text s) =>
      pure (some { line, text := if tag == "!!binary" then s else text, meaning := .text s })
    | some meaning => pure (some { line, text, meaning })
  | _ => mismatch none

/-- What a question finds in a scalar. -/
def leaf (ask : Leaf → Option α) : YamlReads (Option α) := enter fun node => do
  match ← leafOf node with
  | none => pure none
  | some leaf =>
    match ask leaf with
    | some a => pure (some a)
    | none => mismatch none

def bool? (leaf : Leaf) : Option Bool :=
  match leaf.meaning with
  | .bool b => some b
  | .text s => Yaml.oldBool? s
  | _ => none

/-- A whole number of 64 bits. One with a fraction is cut off at the point; above the numbers of 64
bits there is one more, which becomes the least of them. -/
def int? (leaf : Leaf) : Option Int :=
  match leaf.meaning with
  | .int n => if n < Word64.limit then some n else none
  | .float n =>
    if n > Word64.limit then none
    else if n = Word64.limit || n < -Word64.limit then some (-Word64.limit)
    else some n
  | _ => none

def text : YamlReads (Option String) :=
  leaf fun l => some l.text

/-- Takes the node that stands here if it says that it stands for nothing. -/
def nothing : YamlReads Bool := do
  if (← target (← read).node).isNull then
    let _ ← text
    pure true
  else pure false

/-- What a mapping does with a pair, given the text of its key and whether that came up before; it
reads at the value. -/
abbrev PairStep (α : Type) := String → Bool → α → YamlReads α

/-- The texts that the keys of a mapping are. -/
def keyTexts : List (Yaml.Node × Yaml.Node) → YamlReads (List String)
  | [] => pure []
  | (key, _) :: rest => do
    let here ← readAt key <| enter fun node => match node with
      | .scalar .. => do
        match ← leafOf node with
        | some { meaning := .text s, .. } => pure [s]
        | _ => pure []
      | _ => refuse .unfitKey
    return here ++ (← keyTexts rest)

/-- Goes through the pairs of a mapping that are its own. In a mapping that is merged into another one,
keys that came up before are passed over. -/
def ownPairs (merged : Bool) (step : PairStep α) :
    List (Yaml.Node × Yaml.Node) → List String → α → YamlReads (α × List String)
  | [], seen, a => pure (a, seen)
  | (key, value) :: rest, seen, a => do
    if key.isMerge then ownPairs merged step rest seen a
    else match ← readAt key text with
      | none => ownPairs merged step rest seen a
      | some name =>
        let again := seen.contains name
        let seen := if again then seen else name :: seen
        if again && merged then ownPairs merged step rest seen a
        else
          let a ← readAt value (step name again a)
          ownPairs merged step rest seen a

mutual

/-- Goes through the pairs of a mapping, and then through those of the mappings that are merged into
it. `seen` is there in a mapping that is merged into another one. -/
def pairsOf : Nat → PairStep α → Option (List String) → List (Yaml.Node × Yaml.Node) → α →
    YamlReads (α × List String)
  | 0, _, _, _, _ => refuse .unreadable
  | fuel + 1, step, seen, pairs, a => do
    if Yaml.Node.repeats pairs then mismatch (a, seen.getD [])
    else
      let (a, names) ← ownPairs seen.isSome step pairs (seen.getD []) a
      match (pairs.find? fun p => p.1.isMerge).map (·.2) with
      | none => pure (a, names)
      | some value =>
        let names ← if seen.isSome then pure names else keyTexts pairs
        match value with
        | .sequence _ items => mergeAll fuel step items names a
        | value => mergeAll fuel step [value] names a

/-- Merges mappings, each given by itself or by a reference. -/
def mergeAll : Nat → PairStep α → List Yaml.Node → List String → α →
    YamlReads (α × List String)
  | 0, _, _, _, _ => refuse .unreadable
  | _, _, [], seen, a => pure (a, seen)
  | fuel + 1, step, item :: rest, seen, a => do
    let .mapping _ _ ← target item | refuse .unreadable
    let (a, seen) ← readAt item <| enter fun node => match node with
      | .mapping _ pairs => pairsOf fuel step (some seen) pairs a
      | _ => refuse .unreadable
    mergeAll fuel step rest seen a

end

/-- Reads a mapping. -/
def mapping (step : PairStep α) (old : α) : YamlReads α := enter fun node => do
  match node with
  | .mapping _ pairs => return (← pairsOf (← read).depth step none pairs old).1
  | node =>
    match ← leafOf node with
    | some _ => mismatch old
    | none => pure old

/-- What a record does with a pair. -/
def member (keys : Keys) (slots : List (Slot YamlReads α)) : PairStep α := fun name again a =>
  match slots.find? fun slot => slot.key == name with
  | some slot => if again then mismatch a else slot.read a
  | none => if keys.closed then mismatch a else pure a

/-- Puts a pair into texts by their keys. Nothing stands for the empty text, and changes no pair of
another mapping. -/
def putPair : PairStep (List (String × String)) := fun name again pairs => do
  match ← text with
  | some s => pure (insertPair pairs name s)
  | none =>
    pure (if !again && (pairs.lookup name).isSome then pairs else insertPair pairs name "")

/-- Reads items one after the other. -/
def items (item : Option α → YamlReads (Option α)) : List Yaml.Node → YamlReads (List α)
  | [] => pure []
  | node :: rest => do
    let a ← readAt node (item none)
    return a.toList ++ (← items item rest)

def list (item : Option α → YamlReads (Option α)) (old : List α) : YamlReads (List α) :=
  enter fun node => do
    match node with
    | .sequence _ nodes => items item nodes
    | node =>
      match ← leafOf node with
      | some _ => mismatch old
      | none => pure []

instance : Source YamlReads where
  refuse := refuse
  nothing := nothing
  text := text
  bool := leaf bool?
  int := leaf int?
  word := leaf fun l => some { line := l.line, text := l.text }
  resets := false
  spelledOut := do
    match ← target (← read).node with
    | .mapping _ _ => pure true
    | _ => pure false
  record keys slots old := mapping (member keys slots) old
  list := list
  countsNothing := false
  pairs old := mapping putPair old

/-- Reads from a document, given a bound on the depth of its nodes; a value of the wrong kind that was
passed over is an error in the end. -/
def run (x : YamlReads α) (tree : Yaml.Tree) (depth : Nat) : Except ReadError α :=
  match x { node := tree.root, anchors := tree.anchors, depth } { visits := 1 } with
  | .error e => .error e
  | .ok (a, progress) => if progress.mismatch then .error .unreadable else .ok a

end YamlReads

end Schemata
