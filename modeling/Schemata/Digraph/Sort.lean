import Schemata.Digraph.Basic

/-!
# Dependency order

A successor of a node is something that the node depends on. `sort` lists every node after its
dependencies. It counts for each node those that the node still waits for; a node that waits for none
is ready, and the smallest ready node is always placed next. A node may name itself, and name a
dependency twice.
-/

namespace Schemata.Digraph

/-- Why nodes cannot be put in order. -/
inductive SortError where
  /-- A node depends on an index that is no node. -/
  | outOfRange (node : Nat) (dependency : Int)
  /-- The nodes that lie on a cycle or depend on one, ascending. -/
  | cycle (stuck : List Nat)
deriving DecidableEq, Repr

/-- Numbers in brackets, separated by blanks. -/
def listing (nodes : List Nat) : String :=
  "[" ++ String.intercalate " " (nodes.map fun v => toString v) ++ "]"

def SortError.message : SortError → String
  | .outOfRange v d =>
    "dependency index out of range: " ++ toString v ++ " depends on " ++ toString d
  | .cycle stuck => "cycle detected: nodes " ++ listing stuck

/-- The first node, and its first successor, that is out of range. -/
def stray? (G : Digraph) : Option (Nat × Int) :=
  (List.range G.size).findSome? fun v =>
    ((G.succ v).find? fun d => (G.node? d).isNone).map fun d => (v, d)

/-- What a node depends on, itself apart and each node once. -/
def needs (G : Digraph) (v : Nat) : List Nat :=
  ((G.next v).filter (· != v)).eraseDups

/-- Enters a node among the dependents of all that it needs. -/
def enlist (G : Digraph) (table : Array (List Nat)) (v : Nat) : Array (List Nat) :=
  (G.needs v).foldl (fun table d => table.modify d (· ++ [v])) table

/-- For each node those that need it, ascending. -/
def dependents (G : Digraph) : Array (List Nat) :=
  (List.range G.size).foldl G.enlist (Array.replicate G.size [])

/-- How far a sort has come. -/
structure Sorting where
  /-- For each node, how many of those that it needs are not placed. -/
  waits : Array Nat
  /-- The nodes that wait for none and are not placed, ascending. -/
  ready : List Nat
  placed : Array Nat

namespace Sorting

/-- How many of those that a node needs are not placed. -/
def missing (s : Sorting) (v : Nat) : Nat :=
  s.waits[v]?.getD 0

/-- One of those that a node needs has been placed. -/
def release (s : Sorting) (v : Nat) : Sorting :=
  let left := s.missing v - 1
  { s with
    waits := s.waits.setIfInBounds v left
    ready := if left = 0 then lineUp v s.ready else s.ready }

/-- Places, one after the other, up to `count` nodes that are ready, the smallest first, and releases
what waits for them. -/
def place (table : Array (List Nat)) : Nat → Sorting → Sorting
  | 0, s => s
  | count + 1, s =>
    match s.ready with
    | [] => s
    | v :: ready =>
      place table count
        ((table[v]?.getD []).foldl release { s with ready, placed := s.placed.push v })

end Sorting

/-- Nothing is placed yet. -/
def unsorted (G : Digraph) : Sorting where
  waits := (Array.range G.size).map fun v => (G.needs v).length
  ready := (List.range G.size).filter fun v => (G.needs v).isEmpty
  placed := #[]

/-- Every node after its dependencies, the smallest ready node first. -/
def sort (G : Digraph) : Except SortError (List Nat) :=
  match G.stray? with
  | some (v, d) => .error (.outOfRange v d)
  | none =>
    let s := G.unsorted.place G.dependents G.size
    if s.placed.size = G.size then .ok s.placed.toList
    else .error (.cycle ((List.range G.size).filter fun v => 0 < s.missing v))

end Schemata.Digraph
