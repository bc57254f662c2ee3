import Schemata.Proofs.Digraph.Components

/-!
# Graphs built by calls

Whatever calls have built a graph over keys, its answers are those of the relation between keys that the
calls name: the keys in the order of first mention, walks, orders and components.
-/

namespace Schemata

open Relation

/-- A call that adds to a graph. -/
inductive Addition (κ : Type) where
  | node (k : κ)
  /-- An edge, and its ends if they are missing, the start first. -/
  | edge (start target : κ)

namespace Addition

variable {κ : Type}

def mentions : Addition κ → List κ
  | node k => [k]
  | edge a b => [a, b]

def perform [BEq κ] (g : KeyedGraph κ) : Addition κ → KeyedGraph κ
  | node k => g.addNode k
  | edge a b => g.addEdge a b

/-- The keys that calls mention, in the order in which they do so first. -/
def keysOf [BEq κ] (calls : List (Addition κ)) : List κ :=
  (calls.flatMap mentions).eraseDups

/-- Some call adds an edge from `a` to `b`. -/
def Links (calls : List (Addition κ)) (a b : κ) : Prop :=
  edge a b ∈ calls

end Addition

namespace KeyedGraph

variable {κ : Type} {g : KeyedGraph κ} {a b k : κ} {V : κ → Prop} {E : κ → κ → Prop}
  {calls : List (Addition κ)}

/-- The graph that calls build. -/
def ofAdditions [BEq κ] (calls : List (Addition κ)) : KeyedGraph κ :=
  calls.foldl Addition.perform {}

-- ---------------------------------------------------------------------------
-- Keys and edges
-- ---------------------------------------------------------------------------

section Build

variable [BEq κ] [LawfulBEq κ]

theorem keys_addNode {seen : List κ} (h : g.keys = seen.eraseDups) (k : κ) :
    (g.addNode k).keys = (seen ++ [k]).eraseDups := by
  have hmem : k ∈ g.keys ↔ k ∈ seen := by rw [h, List.mem_eraseDups]
  rw [List.eraseDups_append, addNode]
  obtain ⟨i, hi, heq⟩ | ⟨hnew, heq⟩ := insert_cases g k
  · have hk := hmem.mp (List.mem_of_getElem? hi)
    simp [heq, h, List.removeAll, hk]
  · have hk := mt hmem.mpr hnew
    simp [heq, h, List.removeAll, hk, List.eraseDups_cons]

theorem keys_perform {seen : List κ} (h : g.keys = seen.eraseDups) (call : Addition κ) :
    (call.perform g).keys = (seen ++ call.mentions).eraseDups := by
  cases call with
  | node k => exact keys_addNode h k
  | edge a b =>
    have hends := keys_addNode (keys_addNode h a) b
    rwa [List.append_assoc] at hends

theorem keys_foldl_perform {seen : List κ} (h : g.keys = seen.eraseDups) (calls : List (Addition κ)) :
    (calls.foldl Addition.perform g).keys = (seen ++ calls.flatMap Addition.mentions).eraseDups := by
  induction calls generalizing g seen with
  | nil => simpa using h
  | cons call calls ih =>
    rw [List.foldl_cons, ih (keys_perform h call), List.append_assoc, List.flatMap_cons]

theorem keys_ofAdditions (calls : List (Addition κ)) :
    (ofAdditions calls).keys = Addition.keysOf calls := by
  have hempty : ({} : KeyedGraph κ).keys = ([] : List κ).eraseDups := rfl
  exact keys_foldl_perform hempty calls

theorem Represents.perform (h : g.Represents V E) (call : Addition κ) :
    (call.perform g).Represents (fun k => V k ∨ k ∈ call.mentions) (fun a b => E a b ∨ call = .edge a b) := by
  cases call with
  | node k => exact (h.addNode k).congr (by simp [Addition.mentions]) (by simp)
  | edge a b =>
    refine (h.addEdge a b).congr (by simp [Addition.mentions]) fun x y => ?_
    simp [eq_comm]

theorem Represents.foldl_perform (h : g.Represents V E) (calls : List (Addition κ)) :
    (calls.foldl Addition.perform g).Represents
      (fun k => V k ∨ k ∈ calls.flatMap Addition.mentions) (fun a b => E a b ∨ Addition.Links calls a b) := by
  induction calls generalizing g V E with
  | nil => exact h.congr (by simp) (by simp [Addition.Links])
  | cons call calls ih =>
    refine (ih (h.perform call)).congr (fun k => ?_) fun a b => ?_
    · rw [List.flatMap_cons, List.mem_append, or_assoc]
    · rw [Addition.Links, Addition.Links, List.mem_cons, or_assoc, eq_comm (a := call)]

/-- The graph stands for what the calls say. -/
theorem represents_ofAdditions (calls : List (Addition κ)) :
    (ofAdditions calls).Represents (· ∈ (ofAdditions calls).keys) (Addition.Links calls) := by
  have hempty : ({} : KeyedGraph κ).Represents (fun _ => False) fun _ _ => False := .empty
  refine (hempty.foldl_perform calls).congr (fun k => ?_) fun a b => by rw [false_or]
  rw [false_or, keys_ofAdditions, Addition.keysOf, List.mem_eraseDups]

end Build

-- ---------------------------------------------------------------------------
-- Components
-- ---------------------------------------------------------------------------

theorem keysAt_range (g : KeyedGraph κ) : g.keysAt (List.range g.keys.length) = g.keys := by
  have hlist : ∀ ks : List κ, (List.range ks.length).filterMap (ks[·]?) = ks := by
    intro ks
    induction ks with
    | nil => rfl
    | cons k ks ih =>
      rw [List.length_cons, List.range_succ_eq_map, List.filterMap_cons, List.filterMap_map]
      simpa [Function.comp_def] using ih
  simpa [keysAt] using hlist g.keys

/-- What a list of the strongly connected components of a relation between keys says. -/
structure Condensed (keys : List κ) (E : κ → κ → Prop) (cs : List (List κ)) : Prop where
  /-- Every key is in one component, once. -/
  partition : cs.flatten.Perm keys
  inhabited : ∀ c ∈ cs, c ≠ []
  /-- Two keys are in one component exactly when each leads to the other. -/
  joined : ∀ a ∈ keys, ∀ b ∈ keys, (∃ c ∈ cs, a ∈ c ∧ b ∈ c) ↔ Mutual E a b
  /-- No component leads to a later one. -/
  ordered : cs.Pairwise fun c d => ∀ a ∈ c, ∀ b ∈ d, ¬ ReflTransGen E a b

theorem components_partition (g : KeyedGraph κ) : g.components.flatten.Perm g.keys := by
  have hperm := (Digraph.components_partition g.toDigraph).filterMap (g.keys.toArray[·]?)
  rw [List.filterMap_flatten] at hperm
  rw [← keysAt_range g]
  exact hperm

theorem component_ne_nil {c : List κ} (hc : c ∈ g.components) : c ≠ [] := by
  obtain ⟨nodes, hnodes, rfl⟩ := List.mem_map.mp hc
  obtain ⟨v, hv⟩ := List.exists_mem_of_ne_nil _ (Digraph.component_ne_nil hnodes)
  have hlt : v < g.keys.length := Digraph.lt_size_of_mem_component hnodes hv
  exact List.ne_nil_of_mem (mem_keysAt.mpr ⟨v, hv, List.getElem?_eq_getElem hlt⟩)

theorem Represents.condensed (h : g.Represents V E) : Condensed g.keys E g.components where
  partition := components_partition g
  inhabited _ := component_ne_nil
  joined a ha b hb := by
    constructor
    · rintro ⟨c, hc, hac, hbc⟩
      exact ((h.mem_component_iff hc hac).mp hbc).2
    · intro hmutual
      obtain ⟨c, hc, hac⟩ := exists_component ha
      exact ⟨c, hc, hac, (h.mem_component_iff hc hac).mpr ⟨(h.keys b).mp hb, hmutual⟩⟩
  ordered := by
    obtain rfl : g.Edge = E := funext fun x => funext fun y => propext (h.edges x y)
    refine List.Pairwise.map _ (fun c d hleads a ha b hb hwalk => ?_)
      (Digraph.components_ordered g.toDigraph)
    obtain ⟨i, hi, hia⟩ := mem_keysAt.mp ha
    obtain ⟨j, hj, hjb⟩ := mem_keysAt.mp hb
    exact hleads i hi j hj ((reflTransGen_iff_toDigraph h.sound hia hjb).mp hwalk)

-- ---------------------------------------------------------------------------
-- All answers together
-- ---------------------------------------------------------------------------

theorem Sound.sort_ne_outOfRange (h : g.Sound) (v : Nat) (i : Int) : g.sort ≠ .error (.outOfRange v i) := by
  intro hsort
  have hnodes : g.toDigraph.InRange := Digraph.stray?_eq_none_iff.mp h.stray?_eq_none
  refine Digraph.sort_ne_outOfRange hnodes v i ?_
  rw [sort] at hsort
  cases hdigraph : g.toDigraph.sort with
  | ok nodes => simp [hdigraph, Except.map] at hsort
  | error e => simpa [hdigraph, Except.map] using hsort

/-- What a graph answers, as far as it depends on the calls that have built it. -/
structure Answers [BEq κ] (calls : List (Addition κ)) (g : KeyedGraph κ) : Prop where
  keys : g.keys = Addition.keysOf calls
  /-- Every key has one list of successors, and these are numbers of keys. -/
  aligned : g.edges.length = g.keys.length
  inRange : ∀ succ ∈ g.edges, ∀ j ∈ succ, j < g.keys.length
  sort_ne : ∀ v i, g.sort ≠ .error (.outOfRange v i)
  /-- Sorting fails exactly when there is a cycle through two or more keys. -/
  fails_iff : (∃ e, g.sort = .error e) ↔
    ∃ a b, b ≠ a ∧ TransGen (Addition.Links calls) a b ∧ TransGen (Addition.Links calls) b a
  /-- Otherwise it lists every key once, after all other keys to which an edge leads from it. -/
  sorted : ∀ order, g.sort = .ok order → Sorted (· ∈ g.keys) (Addition.Links calls) order
  reachable_iff : ∀ a b, g.reachable a b = true ↔
    a ∈ g.keys ∧ b ∈ g.keys ∧ TransGen (Addition.Links calls) a b
  condensed : Condensed g.keys (Addition.Links calls) g.components

/-- After any calls a graph answers as the relation does that the calls name. -/
theorem answers_ofAdditions [DecidableEq κ] (calls : List (Addition κ)) :
    Answers calls (ofAdditions calls) := by
  have h := represents_ofAdditions calls
  have hlinks : (ofAdditions calls).Edge = Addition.Links calls :=
    funext fun a => funext fun b => propext (h.edges a b)
  refine
    { keys := keys_ofAdditions calls
      aligned := h.sound.aligned
      inRange := h.sound.inRange
      sort_ne := h.sound.sort_ne_outOfRange
      fails_iff := h.sort_error_iff.trans (exists_congr fun _ => Digraph.transGen_ne_self_iff)
      sorted := fun _ => h.sorted
      reachable_iff := fun a b => ?_
      condensed := h.condensed }
  rw [h.reachable_iff, ← hlinks]
  refine ⟨fun hwalk => ?_, fun hwalk => hwalk.2.2⟩
  obtain ⟨ha, hb⟩ := Edge.mem_of_walk hwalk
  exact ⟨ha, hb, hwalk⟩

end KeyedGraph

end Schemata
