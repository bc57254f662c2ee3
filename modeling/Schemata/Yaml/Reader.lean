import Schemata.Yaml.Node
import Schemata.Yaml.Token.Stream

/-!
# Reading YAML

Builds the first document of a text from its tokens. Every level of the recursion takes a token or
goes from a node to its content, so the fuel is twice the number of tokens.
-/

namespace Schemata.Yaml

/-- The state of reading nodes. -/
structure Building where
  tokens : List Token
  /-- The abbreviations for tags. -/
  handles : List (String × String) := []
  /-- The numbers of the anchors, the last one with a name first. -/
  names : List (String × Nat) := []
  anchors : Anchors := []
  nextAnchor : Nat := 0
  nextReference : Nat := 0

abbrev Build := StateT Building Option

def malformed {α : Type} : Build α :=
  StateT.lift none

/-- The next token. -/
def peek : Build Token := do
  let some token := (← get).tokens.head? | malformed
  pure token

/-- The kind of the next token. -/
def peekKind : Build TokenKind :=
  return (← peek).kind

def advance : Build Unit :=
  modify fun b => { b with tokens := b.tokens.drop 1 }

-- ---------------------------------------------------------------------------
-- Anchors and tags
-- ---------------------------------------------------------------------------

/-- The tags of the language itself start with this. -/
def ownTags : String := "tag:yaml.org,2002:"

/-- The short form of a tag; one that says nothing is none. -/
def shortTag (tag : String) : String :=
  if tag == "!" then ""
  else if tag.startsWith ownTags then "!!" ++ (tag.drop ownTags.length).toString
  else tag

/-- The tag that a handle and a suffix make. -/
def tagOf (handle suffix : String) : Build String := do
  if handle == "" then pure (shortTag suffix)
  else
    let some expansion := (← get).handles.lookup handle | malformed
    pure (shortTag (expansion ++ suffix))

/-- What stands before a node: an anchor and a tag. -/
structure Properties where
  line : Nat
  anchor : Option String := none
  tag : Option String := none

namespace Properties

def isPlain (p : Properties) : Bool :=
  p.anchor.isNone && p.tag.isNone

/-- The tag, if it says something. -/
def tagText (p : Properties) : String :=
  p.tag.getD ""

end Properties

/-- Reads anchors and tags, at most one of each. -/
def readProperties : Nat → Properties → Build Properties
  | 0, props => pure props
  | fuel + 1, props => do
    match (← peekKind), props.anchor, props.tag with
    | .anchor name, none, _ =>
      advance
      readProperties fuel { props with anchor := some name }
    | .tag handle suffix, _, none =>
      advance
      let tag ← tagOf handle suffix
      readProperties fuel { props with tag := some tag }
    | _, _, _ => pure props

/-- Takes a number for the anchor of a node, which may be referred to from now on. -/
def openAnchor (p : Properties) : Build (Option Nat) := do
  match p.anchor with
  | none => pure none
  | some name =>
    let b ← get
    set { b with names := (name, b.nextAnchor) :: b.names, nextAnchor := b.nextAnchor + 1 }
    pure (some b.nextAnchor)

/-- Keeps a node under the number of its anchor. -/
def closeAnchor (number : Option Nat) (node : Node) : Build Node := do
  match number with
  | none => pure ()
  | some n => modify fun b => { b with anchors := (n, node) :: b.anchors }
  pure node

/-- A reference to the last anchor with a name. -/
def referTo (name : String) (line : Nat) : Build Node := do
  let b ← get
  let some anchor := b.names.lookup name | malformed
  set { b with nextReference := b.nextReference + 1 }
  pure (.reference line b.nextReference anchor name)

-- ---------------------------------------------------------------------------
-- Nodes
-- ---------------------------------------------------------------------------

/-- Goes on to the next item inside brackets: there is none where the closing one is, and before all
but the first a comma has to be. -/
def nextFlow (closing : TokenKind) (first : Bool) : Build Bool := do
  if (← peekKind) == closing then pure false
  else if first then pure true
  else if (← peekKind) == .comma then
    advance
    return (← peekKind) != closing
  else malformed

mutual

/-- Reads a node: inside brackets, or outside where `block` holds. With `shared`, a sequence may
stand in the column of the mapping that it belongs to. -/
def readNode : Nat → Bool → Bool → Build Node
  | 0, _, _ => malformed
  | fuel + 1, block, shared => do
    let first ← peek
    match first.kind with
    | .reference name =>
      advance
      referTo name first.line
    | _ =>
      let props ← readProperties 2 { line := first.line }
      match (← peekKind), block, shared with
      | .entry, _, true =>
        let anchor ← openAnchor props
        let items ← readSharedItems fuel
        closeAnchor anchor (.sequence props.line items)
      | .scalar quoted text, _, _ =>
        advance
        let anchor ← openAnchor props
        closeAnchor anchor (.scalar props.line props.tagText quoted text)
      | .openBracket, _, _ =>
        let anchor ← openAnchor props
        advance
        let items ← readFlowItems fuel true
        closeAnchor anchor (.sequence props.line items)
      | .openBrace, _, _ =>
        let anchor ← openAnchor props
        advance
        let pairs ← readFlowPairs fuel true
        closeAnchor anchor (.mapping props.line pairs)
      | .blockSequence, true, _ =>
        let anchor ← openAnchor props
        advance
        let items ← readItems fuel
        closeAnchor anchor (.sequence props.line items)
      | .blockMapping, true, _ =>
        let anchor ← openAnchor props
        advance
        let pairs ← readPairs fuel
        closeAnchor anchor (.mapping props.line pairs)
      | _, _, _ =>
        if props.isPlain then malformed
        else
          let anchor ← openAnchor props
          closeAnchor anchor (.scalar props.line props.tagText false "")

/-- Reads the items of a sequence in a column of its own. -/
def readItems : Nat → Build (List Node)
  | 0 => malformed
  | fuel + 1 => do
    let token ← peek
    advance
    match token.kind with
    | .blockEnd => pure []
    | .entry =>
      let item ← match ← peekKind with
        | .entry | .blockEnd => pure (.empty token.line)
        | _ => readNode fuel true false
      return item :: (← readItems fuel)
    | _ => malformed

/-- Reads the items of a sequence in the column of a mapping. -/
def readSharedItems : Nat → Build (List Node)
  | 0 => malformed
  | fuel + 1 => do
    let token ← peek
    match token.kind with
    | .entry =>
      advance
      let item ← match ← peekKind with
        | .entry | .key | .value | .blockEnd => pure (.empty token.line)
        | _ => readNode fuel true false
      return item :: (← readSharedItems fuel)
    | _ => pure []

/-- Reads the pairs of an indented mapping. -/
def readPairs : Nat → Build (List (Node × Node))
  | 0 => malformed
  | fuel + 1 => do
    let token ← peek
    advance
    match token.kind with
    | .blockEnd => pure []
    | .key =>
      let key ← match ← peekKind with
        | .key | .value | .blockEnd => pure (.empty token.line)
        | _ => readNode fuel true true
      let value ← readPairValue fuel
      return (key, value) :: (← readPairs fuel)
    | _ => malformed

/-- Reads the value of a pair of an indented mapping, if there is one. -/
def readPairValue : Nat → Build Node
  | 0 => malformed
  | fuel + 1 => do
    let token ← peek
    match token.kind with
    | .value =>
      advance
      match ← peekKind with
      | .key | .value | .blockEnd => pure (.empty token.line)
      | _ => readNode fuel true true
    | _ => pure (.empty token.line)

/-- Reads the items of a sequence inside brackets. A key makes the item a mapping of one pair. -/
def readFlowItems : Nat → Bool → Build (List Node)
  | 0, _ => malformed
  | fuel + 1, first => do
    if !(← nextFlow .closeBracket first) then
      advance
      pure []
    else
      let token ← peek
      let item ← match token.kind with
        | .key => do
          advance
          let key ← match ← peekKind with
            | .value | .comma | .closeBracket => do
              advance
              pure (.empty token.line)
            | _ => readNode fuel false false
          let value ← readFlowValue fuel .closeBracket
          pure (.mapping token.line [(key, value)])
        | _ => readNode fuel false false
      return item :: (← readFlowItems fuel false)

/-- Reads the value of a pair inside brackets, if there is one. -/
def readFlowValue : Nat → TokenKind → Build Node
  | 0, _ => malformed
  | fuel + 1, closing => do
    let token ← peek
    match token.kind with
    | .value =>
      advance
      let kind ← peekKind
      if kind == .comma || kind == closing then pure (.empty token.line)
      else readNode fuel false false
    | _ => pure (.empty token.line)

/-- Reads the pairs of a mapping inside braces. -/
def readFlowPairs : Nat → Bool → Build (List (Node × Node))
  | 0, _ => malformed
  | fuel + 1, first => do
    if !(← nextFlow .closeBrace first) then
      advance
      pure []
    else
      let token ← peek
      let pair ← match token.kind with
        | .key => do
          advance
          let key ← match ← peekKind with
            | .value | .comma | .closeBrace => pure (.empty token.line)
            | _ => readNode fuel false false
          let value ← readFlowValue fuel .closeBrace
          pure (key, value)
        | _ => do
          let key ← readNode fuel false false
          pure (key, .empty (← peek).line)
      return pair :: (← readFlowPairs fuel false)

end

-- ---------------------------------------------------------------------------
-- Documents
-- ---------------------------------------------------------------------------

/-- Reads directives. There is at most one version, which has to be 1.1, and no handle is abbreviated
twice. -/
def readDirectives : Nat → Bool → Build Unit
  | 0, _ => malformed
  | fuel + 1, versioned => do
    match ← peekKind with
    | .version major minor =>
      if versioned || major ≠ 1 || minor ≠ 1 then malformed
      else
        advance
        readDirectives fuel true
    | .abbreviation handle expansion =>
      let b ← get
      if (b.handles.lookup handle).isSome then malformed
      else
        set { b with handles := (handle, expansion) :: b.handles }
        advance
        readDirectives fuel versioned
    | _ => pure ()

/-- The handles that need no directive. -/
def givenHandles : List (String × String) :=
  [("!", "!"), ("!!", ownTags)]

/-- Reads the first document, if there is one. There has to be a token behind it. -/
def readDocument (fuel : Nat) : Build (Option Tree) := do
  advance
  if (← peekKind) == .streamEnd then pure none
  else
    let start := (← get).tokens.length
    readDirectives fuel false
    modify fun b => { b with handles := b.handles ++ givenHandles }
    let root ←
      if (← peekKind) == .documentStart then do
        advance
        let token ← peek
        match token.kind with
        | .version _ _ | .abbreviation _ _ | .documentStart | .documentEnd | .streamEnd =>
          pure (.empty token.line)
        | _ => readNode fuel true false
      else if (← get).tokens.length < start then malformed
      else readNode fuel true false
    let _ ← peek
    pure (some { root, anchors := (← get).anchors })

/-- The first document of a text: `none` if the text is malformed, and no tree if it is empty. -/
def parse (s : String) : Option (Option Tree) :=
  let tokens := tokens s.toList
  ((readDocument (2 * tokens.length + 4)).run { tokens }).map (·.1)

end Schemata.Yaml
