import Schemata.Digraph.Basic
import Schemata.Digraph.Sort

/-!
# Graphs over keys

Nodes are named by keys of any type with decidable equality and are numbered in the order of first
mention, so every order derived from the numbers is reproducible.
-/

namespace Schemata

/-- `edges` holds one successor list per key, in the same order. -/
structure KeyedGraph (κ : Type) where
  keys : List κ := []
  edges : List (List Nat) := []
deriving Repr, Inhabited

namespace KeyedGraph

variable {κ : Type} [BEq κ]

def index? (g : KeyedGraph κ) (k : κ) : Option Nat :=
  g.keys.idxOf? k

def has (g : KeyedGraph κ) (k : κ) : Bool :=
  (g.index? k).isSome

def size (g : KeyedGraph κ) : Nat :=
  g.keys.length

/-- The graph with `k` among its nodes, and the number of `k`. -/
def insert (g : KeyedGraph κ) (k : κ) : Nat × KeyedGraph κ :=
  match g.index? k with
  | some i => (i, g)
  | none => (g.keys.length, { keys := g.keys ++ [k], edges := g.edges ++ [[]] })

def addNode (g : KeyedGraph κ) (k : κ) : KeyedGraph κ :=
  (g.insert k).2

/-- Adds an edge; missing ends become nodes, the start first. -/
def addEdge (g : KeyedGraph κ) (start target : κ) : KeyedGraph κ :=
  let (i, g) := g.insert start
  let (j, g) := g.insert target
  { g with edges := g.edges.modify i (· ++ [j]) }

/-- The same graph over the numbers of the keys. -/
def toDigraph (g : KeyedGraph κ) : Digraph :=
  Digraph.ofLists g.keys.length (g.edges.map fun succ => succ.map Int.ofNat)

/-- The keys of a list of numbers. -/
def keysAt (g : KeyedGraph κ) (nodes : List Nat) : List κ :=
  let table := g.keys.toArray
  nodes.filterMap fun v => table[v]?

def components (g : KeyedGraph κ) : List (List κ) :=
  g.toDigraph.components.map g.keysAt

def reachable (g : KeyedGraph κ) (start target : κ) : Bool :=
  match g.index? start, g.index? target with
  | some i, some j => g.toDigraph.reachable i j
  | _, _ => false

/-- The keys, every edge target before its source. -/
def sort (g : KeyedGraph κ) : Except Digraph.SortError (List κ) :=
  g.toDigraph.sort.map g.keysAt

end KeyedGraph

end Schemata
