import Schemata.Lists.Groups

/-!
# Directed graphs

A graph has the nodes `0, …, size - 1` and gives every node its list of successors. A successor
outside the range names no node: it is skipped wherever edges are followed, and only a sort
(`Schemata.Digraph.Sort`) refuses it.

`reach v` lists the nodes that a walk of at least one edge leads to from `v`. Two nodes belong to one
strongly connected component when each reaches the other.

All components are found in one depth-first search. It numbers the nodes as it visits them, keeps them on
a stack until their component is complete, and notes for every node the least number that it is known to
lead back to, its low link. When a node is left whose low link is its own number, the stack down to this
node is a component. So a component comes after every component that it reaches.
-/

namespace Schemata

structure Digraph where
  size : Nat
  succ : Nat → List Int

namespace Digraph

/-- The graph with the given successor lists; nodes beyond them have no successors. -/
def ofLists (size : Nat) (edges : List (List Int)) : Digraph :=
  let table := edges.toArray
  { size, succ := fun v => table[v]?.getD [] }

/-- The node that an index names, if it is in range. -/
def node? (G : Digraph) (i : Int) : Option Nat :=
  if 0 ≤ i ∧ i < G.size then some i.toNat else none

/-- The successors of `v` that are nodes, in order. -/
def next (G : Digraph) (v : Nat) : List Nat :=
  (G.succ v).filterMap G.node?

/-- Adds to `seen` all that the pending nodes lead to, themselves included. Every level of the
recursion marks a node that was not marked before, so `size + 1` levels suffice. -/
def collect (G : Digraph) : Nat → List Nat → List Nat → List Nat
  | 0, _, seen => seen
  | level + 1, pending, seen =>
    pending.foldl (fun seen v =>
      if v ∈ seen then seen else G.collect level (G.next v) (v :: seen)) seen

/-- The nodes that a walk of at least one edge leads to from `v`. -/
def reach (G : Digraph) (v : Nat) : List Nat :=
  G.collect (G.size + 1) (G.next v) []

/-- Whether `target` can be reached from `start` by following at least one edge. A node reaches itself
only through a cycle, and an index out of range neither reaches nor is reached. -/
def reachable (G : Digraph) (start target : Int) : Bool :=
  match G.node? start, G.node? target with
  | some v, some w => (G.reach v).contains w
  | _, _ => false

-- ---------------------------------------------------------------------------
-- Components
-- ---------------------------------------------------------------------------

/-- A node that is being worked on, with its edges that have not been followed. -/
structure Frame where
  node : Nat
  edges : List Int

/-- The state of a search among `n` nodes. -/
structure Search (n : Nat) where
  /-- How many nodes have been visited. -/
  count : Nat := 0
  /-- The numbers of the visits, from 1 on; 0 stands for a node that has not been visited. -/
  index : Vector Nat n := .replicate n 0
  low : Vector Nat n := .replicate n 0
  onStack : Vector Bool n := .replicate n false
  /-- The nodes whose component is not complete, latest first. -/
  stack : List Nat := []
  /-- The nodes between the root and the one where the search is, latest first. -/
  work : List Frame := []
  out : List (List Nat) := []

/-- Puts a node into an ascending list. -/
def lineUp (v : Nat) : List Nat → List Nat
  | [] => [v]
  | w :: rest => if w < v then w :: lineUp v rest else v :: w :: rest

/-- Takes nodes off a stack down to `v`: those taken, and the stack that stays. -/
def unstack (v : Nat) : List Nat → List Nat × List Nat
  | [] => ([], [])
  | w :: stack =>
    if w = v then ([w], stack)
    else
      let (taken, rest) := unstack v stack
      (w :: taken, rest)

namespace Search

variable {n : Nat}

def indexOf (s : Search n) (v : Nat) : Nat :=
  s.index[v]?.getD 0

def lowOf (s : Search n) (v : Nat) : Nat :=
  s.low[v]?.getD 0

def stacked (s : Search n) (v : Nat) : Bool :=
  s.onStack[v]?.getD false

/-- Numbers a node and goes on from it. -/
def visit (s : Search n) (v : Nat) (edges : List Int) : Search n :=
  { s with
    count := s.count + 1
    index := s.index.setIfInBounds v (s.count + 1)
    low := s.low.setIfInBounds v (s.count + 1)
    onStack := s.onStack.setIfInBounds v true
    stack := v :: s.stack
    work := ⟨v, edges⟩ :: s.work }

/-- The node `v` leads back to the number `bound`. -/
def lower (s : Search n) (v bound : Nat) : Search n :=
  { s with low := s.low.setIfInBounds v (min (s.lowOf v) bound) }

/-- Takes the component of `v` off the stack. -/
def close (s : Search n) (v : Nat) : Search n :=
  let (taken, stack) := unstack v s.stack
  { s with
    stack
    onStack := taken.foldl (fun onStack w => onStack.setIfInBounds w false) s.onStack
    out := s.out ++ [taken.foldr lineUp []] }

/-- Goes back from `v`, which all edges have been followed from, to the node before it. -/
def leave (s : Search n) (v : Nat) : Search n :=
  let s := match s.work with
    | [] => s
    | parent :: _ => s.lower parent.node (s.lowOf v)
  if s.lowOf v = s.indexOf v then s.close v else s

end Search

/-- Follows an edge of `v`. -/
def follow (G : Digraph) (s : Search G.size) (v : Nat) (edge : Int) : Search G.size :=
  match G.node? edge with
  | none => s
  | some w =>
    if s.indexOf w = 0 then s.visit w (G.succ w)
    else if s.stacked w then s.lower v (s.indexOf w)
    else s

/-- Follows the next edge of the node where the search is, or leaves the node. -/
def step (G : Digraph) (s : Search G.size) : Option (Search G.size) :=
  match s.work with
  | [] => none
  | ⟨v, edge :: edges⟩ :: work => some (G.follow { s with work := ⟨v, edges⟩ :: work } v edge)
  | ⟨v, []⟩ :: work => some ({ s with work }.leave v)

/-- The steps that a node takes once it is visited: one for every edge, and one to leave it. -/
def toll (G : Digraph) (s : Search G.size) (v : Nat) : Nat :=
  if s.indexOf v = 0 then (G.succ v).length + 1 else 0

/-- The number of steps ahead, on the nodes that have not been visited and on those that are being
worked on. -/
def remaining (G : Digraph) (s : Search G.size) : Nat :=
  Lists.total ((List.range G.size).map (G.toll s)) + Lists.total (s.work.map fun f => f.edges.length + 1)

theorem lt_size_of_node? {G : Digraph} {i : Int} {v : Nat} (h : G.node? i = some v) : v < G.size := by
  simp only [node?, Option.ite_none_right_eq_some, Option.some.injEq] at h
  omega

theorem total_map_erased (f : Nat → Nat) (w : Nat) (vs : List Nat) :
    Lists.total (vs.map fun v => if v = w then 0 else f v) + (if w ∈ vs then f w else 0) ≤
      Lists.total (vs.map f) := by
  induction vs with
  | nil => simp
  | cons v vs ih =>
    simp only [List.map_cons, Lists.total, List.mem_cons]
    grind

theorem Search.indexOf_visit {n : Nat} {v : Nat} (s : Search n) (edges : List Int) (hv : v < n) (u : Nat) :
    (s.visit v edges).indexOf u = if u = v then s.count + 1 else s.indexOf u := by
  simp only [indexOf, visit, Vector.getElem?_setIfInBounds, hv, if_true, eq_comm (a := u)]
  split <;> rfl

theorem toll_congr {G : Digraph} {s s' : Search G.size} (h : s'.index = s.index) :
    G.toll s' = G.toll s := by
  unfold toll Search.indexOf
  rw [h]

theorem remaining_visit {G : Digraph} {s : Search G.size} {w : Nat} (hw : w < G.size)
    (hnew : s.indexOf w = 0) : G.remaining (s.visit w (G.succ w)) ≤ G.remaining s := by
  have htoll : G.toll (s.visit w (G.succ w)) = fun v => if v = w then 0 else G.toll s v := by
    funext v
    simp only [toll, s.indexOf_visit _ hw]
    split <;> simp_all
  have hsum := total_map_erased (G.toll s) w (List.range G.size)
  rw [if_pos (List.mem_range.mpr hw), show G.toll s w = (G.succ w).length + 1 from if_pos hnew] at hsum
  rw [remaining, remaining, htoll, show (s.visit w (G.succ w)).work = ⟨w, G.succ w⟩ :: s.work from rfl,
    List.map_cons, Lists.total]
  dsimp only
  omega

theorem remaining_follow (G : Digraph) (s : Search G.size) (v : Nat) (edge : Int) :
    G.remaining (G.follow s v edge) ≤ G.remaining s := by
  unfold follow
  split
  case h_1 => exact Nat.le_refl _
  case h_2 w hw =>
    split
    case isTrue hnew => exact remaining_visit (lt_size_of_node? hw) hnew
    case isFalse => split <;> exact Nat.le_refl _

@[simp] theorem Search.index_leave {n : Nat} (s : Search n) (v : Nat) : (s.leave v).index = s.index := by
  unfold leave
  dsimp only
  split <;> split <;> rfl

@[simp] theorem Search.work_leave {n : Nat} (s : Search n) (v : Nat) : (s.leave v).work = s.work := by
  unfold leave
  dsimp only
  split <;> split <;> simp_all [lower, close]

theorem remaining_step {G : Digraph} {s s' : Search G.size} (h : G.step s = some s') :
    G.remaining s' < G.remaining s := by
  unfold step at h
  split at h
  case h_1 => cases h
  case h_2 v edge edges work hwork =>
    obtain rfl := Option.some.inj h
    refine Nat.lt_of_le_of_lt (remaining_follow G _ v edge) ?_
    have htoll : G.toll { s with work := ⟨v, edges⟩ :: work } = G.toll s := toll_congr rfl
    simp [remaining, htoll, hwork, Lists.total]
  case h_3 v work hwork =>
    obtain rfl := Option.some.inj h
    have htoll : G.toll ({ s with work }.leave v) = G.toll s := toll_congr (Search.index_leave _ v)
    simp [remaining, htoll, hwork, Lists.total]

/-- Steps until the search is back at the root and has left it. -/
def run (G : Digraph) (s : Search G.size) : Search G.size :=
  match _h : G.step s with
  | none => s
  | some s' => G.run s'
termination_by G.remaining s
decreasing_by exact remaining_step _h

/-- Searches on from a node unless it has been visited. -/
def searchFrom (G : Digraph) (s : Search G.size) (root : Nat) : Search G.size :=
  if s.indexOf root = 0 then G.run (s.visit root (G.succ root)) else s

/-- The strongly connected components, each ascending, every component after those it reaches. -/
def components (G : Digraph) : List (List Nat) :=
  ((List.range G.size).foldl G.searchFrom {}).out

end Digraph

end Schemata
