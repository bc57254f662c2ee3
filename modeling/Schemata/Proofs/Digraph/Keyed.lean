import Schemata.Digraph.Keyed
import Schemata.Proofs.Digraph.Order

/-!
# Graphs over keys as relations

A keyed graph stands for a set of keys and a relation between them. `Represents` says which, and
how it changes when nodes and edges are added; reachability and order are then statements about the
relation, without numbers.
-/

namespace Schemata.KeyedGraph

open Relation

variable {κ : Type} {g : KeyedGraph κ} {a b k : κ} {V : κ → Prop} {E : κ → κ → Prop}

/-- Every key has one number and one list of successors, which are numbers of keys. -/
structure Sound (g : KeyedGraph κ) : Prop where
  nodup : g.keys.Nodup
  aligned : g.edges.length = g.keys.length
  inRange : ∀ succ ∈ g.edges, ∀ j ∈ succ, j < g.keys.length

/-- An edge between two keys. -/
def Edge (g : KeyedGraph κ) (a b : κ) : Prop :=
  ∃ i j : Nat, g.keys[i]? = some a ∧ g.keys[j]? = some b ∧ ∃ succ, g.edges[i]? = some succ ∧ j ∈ succ

/-- The key `a` depends on the other key `b`. -/
def Needs (g : KeyedGraph κ) (a b : κ) : Prop :=
  g.Edge a b ∧ b ≠ a

/-- The graph has exactly the keys of `V` and the edges of `E`. -/
structure Represents (g : KeyedGraph κ) (V : κ → Prop) (E : κ → κ → Prop) : Prop where
  sound : g.Sound
  keys : ∀ k, k ∈ g.keys ↔ V k
  edges : ∀ a b, g.Edge a b ↔ E a b

theorem Represents.congr {V' : κ → Prop} {E' : κ → κ → Prop} (h : g.Represents V E)
    (hV : ∀ k, V k ↔ V' k) (hE : ∀ a b, E a b ↔ E' a b) : g.Represents V' E' where
  sound := h.sound
  keys k := (h.keys k).trans (hV k)
  edges a b := (h.edges a b).trans (hE a b)

theorem Represents.empty : ({} : KeyedGraph κ).Represents (fun _ => False) (fun _ _ => False) where
  sound := ⟨List.nodup_nil, rfl, fun _ h => absurd h List.not_mem_nil⟩
  keys k := by simp
  edges a b := by simp [Edge]

-- ---------------------------------------------------------------------------
-- Numbers
-- ---------------------------------------------------------------------------

theorem Sound.index_inj (h : g.Sound) {i j : Nat} (hi : g.keys[i]? = some k)
    (hj : g.keys[j]? = some k) : i = j := by
  obtain ⟨hlt, -⟩ := List.getElem?_eq_some_iff.mp hi
  exact (List.getElem?_inj hlt h.nodup).mp (hi.trans hj.symm)

theorem Edge.mem_left (h : g.Edge a b) : a ∈ g.keys := by
  obtain ⟨i, -, ha, -⟩ := h
  exact List.mem_of_getElem? ha

theorem Edge.mem_right (h : g.Edge a b) : b ∈ g.keys := by
  obtain ⟨-, j, -, hb, -⟩ := h
  exact List.mem_of_getElem? hb

/-- A walk leads from a key to a key. -/
theorem Edge.mem_of_walk (hwalk : TransGen g.Edge a b) : a ∈ g.keys ∧ b ∈ g.keys := by
  obtain ⟨c, hac, -⟩ := TransGen.head'_iff.mp hwalk
  obtain ⟨d, -, hdb⟩ := TransGen.tail'_iff.mp hwalk
  exact ⟨hac.mem_left, hdb.mem_right⟩

theorem toDigraph_edge_iff (h : g.Sound) {i j : Nat} :
    g.toDigraph.Edge i j ↔ ∃ succ, g.edges[i]? = some succ ∧ j ∈ succ := by
  simp only [Digraph.Edge, Digraph.mem_next_iff, toDigraph, Digraph.ofLists, List.getElem?_toArray,
    List.getElem?_map]
  cases hsucc : g.edges[i]? with
  | none => simp
  | some succ =>
    have hrange : j ∈ succ → j < g.keys.length := h.inRange succ (List.mem_of_getElem? hsucc) j
    simp only [Option.map_some, Option.getD_some, List.mem_map, Option.some.injEq, exists_eq_left']
    constructor
    · rintro ⟨⟨n, hn, heq⟩, -⟩
      obtain rfl : n = j := Int.ofNat.inj heq
      exact hn
    · exact fun hj => ⟨⟨j, hj, rfl⟩, hrange hj⟩

theorem getElem?_append_of_eq_some {α : Type} {xs ys : List α} {i : Nat} {x : α}
    (h : xs[i]? = some x) : (xs ++ ys)[i]? = some x :=
  (List.getElem?_append_left (List.getElem?_eq_some_iff.mp h).1).trans h

/-- From the number of a key an edge leads to the number of another key, and conversely. -/
theorem edge_iff_toDigraph (h : g.Sound) {i j : Nat} (hi : g.keys[i]? = some a)
    (hj : g.keys[j]? = some b) : g.Edge a b ↔ g.toDigraph.Edge i j := by
  rw [toDigraph_edge_iff h]
  constructor
  · rintro ⟨i', j', ha, hb, hsucc⟩
    obtain rfl := h.index_inj ha hi
    obtain rfl := h.index_inj hb hj
    exact hsucc
  · exact fun hsucc => ⟨i, j, hi, hj, hsucc⟩

theorem getElem?_of_toDigraph_edge (h : g.Sound) {i j : Nat} (hij : g.toDigraph.Edge i j) :
    ∃ a b, g.keys[i]? = some a ∧ g.keys[j]? = some b := by
  obtain ⟨succ, hsucc, hmem⟩ := (toDigraph_edge_iff h).mp hij
  have hj := h.inRange succ (List.mem_of_getElem? hsucc) j hmem
  have hi : i < g.keys.length := h.aligned ▸ (List.getElem?_eq_some_iff.mp hsucc).1
  exact ⟨_, _, List.getElem?_eq_getElem hi, List.getElem?_eq_getElem hj⟩

/-- Walks over keys are walks over numbers. -/
theorem transGen_iff_toDigraph (h : g.Sound) (P : κ → κ → Prop) (P' : Nat → Nat → Prop)
    (hP : ∀ {i j a b}, g.keys[i]? = some a → g.keys[j]? = some b → (P a b ↔ P' i j))
    {i j : Nat} (hi : g.keys[i]? = some a) (hj : g.keys[j]? = some b) :
    TransGen (fun a b => g.Edge a b ∧ P a b) a b ↔
      TransGen (fun i j => g.toDigraph.Edge i j ∧ P' i j) i j := by
  constructor
  · intro hwalk
    induction hwalk generalizing j with
    | single hedge => exact .single ⟨(edge_iff_toDigraph h hi hj).mp hedge.1, (hP hi hj).mp hedge.2⟩
    | tail _ hedge ih =>
      obtain ⟨n, hn⟩ := List.getElem?_of_mem hedge.1.mem_left
      exact .tail (ih hn) ⟨(edge_iff_toDigraph h hn hj).mp hedge.1, (hP hn hj).mp hedge.2⟩
  · intro hwalk
    induction hwalk generalizing b with
    | single hedge => exact .single ⟨(edge_iff_toDigraph h hi hj).mpr hedge.1, (hP hi hj).mpr hedge.2⟩
    | tail _ hedge ih =>
      obtain ⟨c, _, hc, _⟩ := getElem?_of_toDigraph_edge h hedge.1
      exact .tail (ih hc) ⟨(edge_iff_toDigraph h hc hj).mpr hedge.1, (hP hc hj).mpr hedge.2⟩

-- ---------------------------------------------------------------------------
-- Adding nodes and edges
-- ---------------------------------------------------------------------------

/-- Which numbers follow which after one more successor of `i`. -/
theorem exists_succ_modify_iff {edges : List (List Nat)} {i j m n : Nat} :
    (∃ succ, (edges.modify i (· ++ [j]))[m]? = some succ ∧ n ∈ succ) ↔
      (∃ succ, edges[m]? = some succ ∧ n ∈ succ) ∨ (i < edges.length ∧ m = i ∧ n = j) := by
  rw [List.getElem?_modify]
  cases hm : edges[m]? with
  | none =>
    have hlen := List.getElem?_eq_none_iff.mp hm
    simp only [Option.map_eq_map, Option.map_none, reduceCtorEq, false_and, exists_false, false_or,
      false_iff]
    omega
  | some succ =>
    have hlen := (List.getElem?_eq_some_iff.mp hm).1
    by_cases him : i = m
    · subst him
      simp [hlen]
    · simp [him, Ne.symm him]

/-- A new successor of a numbered key. -/
theorem Represents.link (h : g.Represents V E) {i j : Nat} (hi : g.keys[i]? = some a)
    (hj : g.keys[j]? = some b) :
    ({ g with edges := g.edges.modify i (· ++ [j]) } : KeyedGraph κ).Represents V
      (fun x y => E x y ∨ x = a ∧ y = b) := by
  have hsound := h.sound
  have hilt : i < g.edges.length := hsound.aligned ▸ (List.getElem?_eq_some_iff.mp hi).1
  refine ⟨⟨hsound.nodup, by simp [hsound.aligned], fun succ hsucc n hn => ?_⟩, h.keys, fun x y => ?_⟩
  · obtain ⟨m, hm⟩ := List.getElem?_of_mem hsucc
    obtain ⟨old, hold, hn⟩ | ⟨-, -, rfl⟩ := exists_succ_modify_iff.mp ⟨succ, hm, hn⟩
    · exact hsound.inRange old (List.mem_of_getElem? hold) n hn
    · exact (List.getElem?_eq_some_iff.mp hj).1
  · rw [← h.edges x y]
    constructor
    · rintro ⟨m, n, hx, hy, hsucc⟩
      obtain hold | ⟨-, rfl, rfl⟩ := exists_succ_modify_iff.mp hsucc
      · exact .inl ⟨m, n, hx, hy, hold⟩
      · exact .inr ⟨Option.some.inj (hx.symm.trans hi), Option.some.inj (hy.symm.trans hj)⟩
    · rintro (⟨m, n, hx, hy, hsucc⟩ | ⟨rfl, rfl⟩)
      · exact ⟨m, n, hx, hy, exists_succ_modify_iff.mpr (.inl hsucc)⟩
      · exact ⟨i, j, hi, hj, exists_succ_modify_iff.mpr (.inr ⟨hilt, rfl, rfl⟩)⟩

section Build

variable [BEq κ] [LawfulBEq κ]

theorem index?_eq_some_iff (h : g.Sound) {i : Nat} : g.index? k = some i ↔ g.keys[i]? = some k := by
  unfold index?
  rw [List.idxOf?_eq_some_iff]
  constructor
  · rintro ⟨hlt, heq, -⟩
    exact List.getElem?_eq_some_iff.mpr ⟨hlt, heq⟩
  · intro hi
    obtain ⟨hlt, heq⟩ := List.getElem?_eq_some_iff.mp hi
    refine ⟨hlt, heq, fun j hj hk => ?_⟩
    have hjlt : j < g.keys.length := hj.trans hlt
    have := h.index_inj (List.getElem?_eq_some_iff.mpr ⟨hjlt, hk⟩) hi
    omega

theorem insert_cases (g : KeyedGraph κ) (k : κ) :
    (∃ i, g.keys[i]? = some k ∧ g.insert k = (i, g)) ∨
      (k ∉ g.keys ∧
        g.insert k = (g.keys.length, { keys := g.keys ++ [k], edges := g.edges ++ [[]] })) := by
  unfold insert
  split
  case h_1 i hi =>
    obtain ⟨hlt, heq, -⟩ := List.idxOf?_eq_some_iff.mp hi
    exact .inl ⟨i, List.getElem?_eq_some_iff.mpr ⟨hlt, heq⟩, rfl⟩
  case h_2 hnone => exact .inr ⟨List.idxOf?_eq_none_iff.mp hnone, rfl⟩

theorem Represents.addNode (h : g.Represents V E) (k : κ) :
    (g.addNode k).Represents (fun x => V x ∨ x = k) E := by
  obtain ⟨i, hi, heq⟩ | ⟨hnew, heq⟩ := insert_cases g k
  · rw [KeyedGraph.addNode, heq]
    refine h.congr (fun x => ?_) fun _ _ => .rfl
    have hk : V k := (h.keys k).mp (List.mem_of_getElem? hi)
    exact ⟨.inl, fun hx => hx.elim id fun hx => hx ▸ hk⟩
  · rw [KeyedGraph.addNode, heq]
    have hsound := h.sound
    refine ⟨⟨?_, ?_, ?_⟩, fun x => ?_, fun x y => ?_⟩
    · exact List.nodup_append.mpr ⟨hsound.nodup, List.nodup_singleton k, by
        rintro x hx _ hy rfl
        exact hnew (List.mem_singleton.mp hy ▸ hx)⟩
    · simp [hsound.aligned]
    · intro succ hsucc j hj
      rw [List.length_append]
      obtain hold | hlast := List.mem_append.mp hsucc
      · exact Nat.lt_add_right _ (hsound.inRange succ hold j hj)
      · rw [List.mem_singleton.mp hlast] at hj
        exact absurd hj List.not_mem_nil
    · simp [h.keys x]
    · rw [← h.edges x y]
      -- the new node has no edges, and those of the others lead to the same numbers
      constructor
      · rintro ⟨i, j, hx, hy, succ, hsucc, hj⟩
        have hi : i < g.edges.length := by
          by_contra hge
          rw [List.getElem?_append_right (by omega)] at hsucc
          obtain ⟨hlt, heq⟩ := List.getElem?_eq_some_iff.mp hsucc
          obtain rfl : succ = [] := by simpa using heq.symm
          exact absurd hj List.not_mem_nil
        rw [List.getElem?_append_left hi] at hsucc
        have hjlt := hsound.inRange succ (List.mem_of_getElem? hsucc) j hj
        rw [List.getElem?_append_left (hsound.aligned ▸ hi)] at hx
        rw [List.getElem?_append_left hjlt] at hy
        exact ⟨i, j, hx, hy, succ, hsucc, hj⟩
      · rintro ⟨i, j, hx, hy, succ, hsucc, hj⟩
        exact ⟨i, j, getElem?_append_of_eq_some hx, getElem?_append_of_eq_some hy, succ,
          getElem?_append_of_eq_some hsucc, hj⟩

theorem insert_getElem? (g : KeyedGraph κ) (k : κ) :
    (g.insert k).2.keys[(g.insert k).1]? = some k := by
  obtain ⟨i, hi, heq⟩ | ⟨-, heq⟩ := insert_cases g k
  · rw [heq]
    exact hi
  · rw [heq]
    simp

theorem insert_keeps {i : Nat} (h : g.keys[i]? = some a) (k : κ) :
    (g.insert k).2.keys[i]? = some a := by
  obtain ⟨j, -, heq⟩ | ⟨-, heq⟩ := insert_cases g k
  · rw [heq]
    exact h
  · rw [heq]
    exact getElem?_append_of_eq_some h

theorem Represents.addEdge (h : g.Represents V E) (a b : κ) :
    (g.addEdge a b).Represents (fun x => V x ∨ x = a ∨ x = b) (fun x y => E x y ∨ x = a ∧ y = b) := by
  have hnodes := (h.addNode a).addNode b
  refine (hnodes.link (insert_keeps (insert_getElem? g a) b) (insert_getElem? _ b)).congr
    (fun x => ?_) fun _ _ => .rfl
  exact or_assoc

theorem Represents.addNodes (h : g.Represents V E) (ks : List κ) :
    (ks.foldl KeyedGraph.addNode g).Represents (fun x => V x ∨ x ∈ ks) E := by
  induction ks generalizing g V with
  | nil => exact h.congr (by simp) fun _ _ => .rfl
  | cons k ks ih => exact (ih (h.addNode k)).congr (fun x => by simp [or_assoc]) fun _ _ => .rfl

/-- Edges from a node that is there already. -/
theorem Represents.addEdges (h : g.Represents V E) (ha : V a) (bs : List κ) :
    (bs.foldl (fun g b => g.addEdge a b) g).Represents (fun x => V x ∨ x ∈ bs)
      (fun x y => E x y ∨ x = a ∧ y ∈ bs) := by
  induction bs generalizing g V E with
  | nil => exact h.congr (by simp) (by simp)
  | cons b bs ih =>
    refine (ih (h.addEdge a b) (.inl ha)).congr (fun x => ?_) fun x y => ?_
    · have hx : x = a → V x := fun hx => hx ▸ ha
      rw [List.mem_cons]
      tauto
    · rw [List.mem_cons]
      tauto

-- ---------------------------------------------------------------------------
-- Reachability and order
-- ---------------------------------------------------------------------------

theorem Represents.reachable_iff (h : g.Represents V E) :
    g.reachable a b = true ↔ TransGen E a b := by
  have hE : g.Edge = E := funext fun x => funext fun y => propext (h.edges x y)
  rw [← hE]
  unfold reachable
  split
  case h_1 i j hi hj =>
    rw [index?_eq_some_iff h.sound] at hi hj
    have hilt : i < g.toDigraph.size := (List.getElem?_eq_some_iff.mp hi).1
    have hjlt : j < g.toDigraph.size := (List.getElem?_eq_some_iff.mp hj).1
    rw [Digraph.reachable_iff hilt hjlt]
    simpa using (transGen_iff_toDigraph h.sound (fun _ _ => True) (fun _ _ => True)
      (fun _ _ => .rfl) hi hj).symm
  case h_2 hnone =>
    simp only [Bool.false_eq_true, false_iff]
    intro hwalk
    have hmem : ∀ {k}, k ∈ g.keys → ∃ i, g.index? k = some i := fun hk => by
      obtain ⟨i, hi⟩ := List.getElem?_of_mem hk
      exact ⟨i, (index?_eq_some_iff h.sound).mpr hi⟩
    obtain ⟨ha, hb⟩ := Edge.mem_of_walk hwalk
    obtain ⟨i, hi⟩ := hmem ha
    obtain ⟨j, hj⟩ := hmem hb
    exact hnone i j hi hj

end Build

-- ---------------------------------------------------------------------------
-- Order
-- ---------------------------------------------------------------------------

/-- A list of all keys of `V`, each once and after all other keys that it needs by `E`. -/
structure Sorted (V : κ → Prop) (E : κ → κ → Prop) (order : List κ) : Prop where
  nodup : order.Nodup
  mem_iff : ∀ k, k ∈ order ↔ V k
  needed : ∀ before k after, order = before ++ k :: after → ∀ d, E k d → d ≠ k → d ∈ before

theorem mem_keysAt {nodes : List Nat} : k ∈ g.keysAt nodes ↔ ∃ v ∈ nodes, g.keys[v]? = some k := by
  simp [keysAt]

theorem Sound.keysAt_nodup (h : g.Sound) {nodes : List Nat} (hn : nodes.Nodup) :
    (g.keysAt nodes).Nodup := by
  refine List.Nodup.filterMap (fun i j k hi hj => ?_) hn
  simp only [List.getElem?_toArray, Option.mem_def] at hi hj
  exact h.index_inj hi hj

theorem needs_iff_toDigraph (h : g.Sound) {i j : Nat} (hi : g.keys[i]? = some a)
    (hj : g.keys[j]? = some b) : g.Needs a b ↔ g.toDigraph.Needs i j := by
  refine and_congr (edge_iff_toDigraph h hi hj) (not_congr ⟨?_, ?_⟩)
  · rintro rfl
    exact h.index_inj hj hi
  · rintro rfl
    exact Option.some.inj (hj.symm.trans hi)

theorem toDigraph_cyclic_iff (h : g.Sound) : g.toDigraph.Cyclic ↔ ∃ k, TransGen g.Needs k k := by
  have hwalk : ∀ {i j a b}, g.keys[i]? = some a → g.keys[j]? = some b →
      (TransGen g.Needs a b ↔ TransGen g.toDigraph.Needs i j) :=
    fun hi hj => transGen_iff_toDigraph h (fun a b => b ≠ a) (fun i j => j ≠ i)
      (fun hi hj => not_congr ⟨fun hba => h.index_inj (hba ▸ hj) hi, fun hji => by
        subst hji; exact Option.some.inj (hj.symm.trans hi)⟩) hi hj
  constructor
  · rintro ⟨v, hv⟩
    obtain ⟨u, -, hu⟩ := TransGen.tail'_iff.mp hv
    obtain ⟨_, k, _, hk⟩ := getElem?_of_toDigraph_edge h hu.1
    exact ⟨k, (hwalk hk hk).mpr hv⟩
  · rintro ⟨k, hk⟩
    obtain ⟨c, -, hc⟩ := TransGen.tail'_iff.mp hk
    obtain ⟨v, hv⟩ := List.getElem?_of_mem hc.1.mem_right
    exact ⟨v, (hwalk hv hv).mp hk⟩

/-- Every successor in a sound graph is the number of a key. -/
theorem Sound.stray?_eq_none (h : g.Sound) : g.toDigraph.stray? = none := by
  refine Digraph.stray?_eq_none_iff.mpr fun v _ i hi => ?_
  simp only [toDigraph, Digraph.ofLists, List.getElem?_toArray, List.getElem?_map] at hi
  cases hsucc : g.edges[v]? with
  | none => simp [hsucc] at hi
  | some succ =>
    simp only [hsucc, Option.map_some, Option.getD_some, List.mem_map] at hi
    obtain ⟨j, hj, rfl⟩ := hi
    have := h.inRange succ (List.mem_of_getElem? hsucc) j hj
    simp only [toDigraph, Digraph.ofLists, Int.ofNat_eq_natCast]
    omega

theorem sort_eq_ok_iff {order : List κ} :
    g.sort = .ok order ↔ ∃ nodes, g.toDigraph.sort = .ok nodes ∧ g.keysAt nodes = order := by
  unfold sort
  cases g.toDigraph.sort with
  | error e => simp [Except.map]
  | ok nodes => simp [Except.map]

theorem Represents.sorted {order : List κ} (h : g.Represents V E) (hs : g.sort = .ok order) :
    Sorted V E order := by
  have hsound := h.sound
  obtain ⟨nodes, hnodes, rfl⟩ := sort_eq_ok_iff.mp hs
  have hperm := Digraph.sort_perm hnodes
  have hnodup : nodes.Nodup := hperm.nodup_iff.mpr List.nodup_range
  refine ⟨hsound.keysAt_nodup hnodup, fun k => ?_, fun before k after heq d hd hne => ?_⟩
  · rw [← h.keys k, mem_keysAt]
    constructor
    · rintro ⟨v, -, hv⟩
      exact List.mem_of_getElem? hv
    · intro hk
      obtain ⟨v, hv⟩ := List.getElem?_of_mem hk
      have hlt : v < g.keys.length := (List.getElem?_eq_some_iff.mp hv).1
      exact ⟨v, hperm.mem_iff.mpr (List.mem_range.mpr hlt), hv⟩
  · -- split the list of numbers where the list of keys is split
    obtain ⟨front, back, rfl, rfl, hback⟩ := List.filterMap_eq_append_iff.mp heq
    obtain ⟨skipped, v, rest, rfl, hskipped, hv, -⟩ := List.filterMap_eq_cons_iff.mp hback
    rw [List.getElem?_toArray] at hv
    have hedge := (h.edges k d).mpr hd
    obtain ⟨j, hj⟩ := List.getElem?_of_mem hedge.mem_right
    have hneeds := (needs_iff_toDigraph hsound hv hj).mp ⟨hedge, hne⟩
    have hmem := (Digraph.sort_placed hnodes).ordered (front ++ skipped) v rest (by simp) j hneeds
    obtain hfront | hskip := List.mem_append.mp hmem
    · exact mem_keysAt.mpr ⟨j, hfront, hj⟩
    · have hnone := hskipped j hskip
      rw [List.getElem?_toArray, hj] at hnone
      cases hnone

/-- Sorting fails exactly when there is a cycle through two or more keys. -/
theorem Represents.sort_error_iff (h : g.Represents V E) :
    (∃ e, g.sort = .error e) ↔ ∃ k, TransGen (fun a b => E a b ∧ b ≠ a) k k := by
  obtain rfl : g.Edge = E := funext fun x => funext fun y => propext (h.edges x y)
  refine Iff.trans ?_ (toDigraph_cyclic_iff h.sound)
  unfold sort
  cases hs : g.toDigraph.sort with
  | ok nodes => simpa [Except.map] using Digraph.not_cyclic_of_sort hs
  | error e =>
    refine iff_of_true ⟨e, rfl⟩ ?_
    obtain ⟨v, i, -, hstray⟩ | ⟨_, he, _⟩ | ⟨stuck, _, he, -⟩ := Digraph.sort_cases hs
    · rw [h.sound.stray?_eq_none] at hstray
      cases hstray
    · cases he
    · exact Digraph.cyclic_of_sort (hs.trans he)

end Schemata.KeyedGraph
