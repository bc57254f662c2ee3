/-!
# Nodes of YAML

A document is a tree of scalars, sequences and mappings. Every node knows the line it starts on. A
reference stands for the node with an anchor; as that node may hold the reference itself, the nodes
with anchors are kept beside the tree.
-/

namespace Schemata.Yaml

inductive Node where
  /-- A text, `quoted` unless it is written plainly, under the tag that it carries, if any. -/
  | scalar (line : Nat) (tag : String) (quoted : Bool) (text : String)
  | sequence (line : Nat) (items : List Node)
  | mapping (line : Nat) (pairs : List (Node × Node))
  /-- A reference, with a number of its own and the number of the anchor that it names. -/
  | reference (line : Nat) (occurrence : Nat) (anchor : Nat) (name : String)
deriving Repr, Inhabited

namespace Node

def line : Node → Nat
  | scalar n _ _ _ => n
  | sequence n _ => n
  | mapping n _ => n
  | reference n _ _ _ => n

/-- What stands where nothing is written. -/
def empty (line : Nat) : Node :=
  scalar line "" false ""

end Node

/-- The nodes with anchors, by the numbers of the anchors. -/
abbrev Anchors := List (Nat × Node)

/-- A document: its root and its nodes with anchors. -/
structure Tree where
  root : Node
  anchors : Anchors
deriving Repr, Inhabited

end Schemata.Yaml
