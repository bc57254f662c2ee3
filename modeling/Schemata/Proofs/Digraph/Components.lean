import Mathlib.Data.List.Nodup
import Mathlib.Data.List.Pairwise
import Schemata.Proofs.Digraph.Keyed
import Schemata.Proofs.Digraph.LowLinks

/-!
# Components

The components that the search completes share out the nodes. None leads to a later one, and the nodes
of one lead to one another; so two nodes are in one component exactly when each leads to the other.
-/

namespace Schemata

open Relation

namespace Digraph

variable {G : Digraph} {v w : Nat} {c : List Nat} {out : List (List Nat)}

/-- What a list of the strongly connected components of a graph says. -/
structure Condenses (G : Digraph) (cs : List (List Nat)) : Prop where
  /-- Every node is in one component, once. -/
  partition : cs.flatten.Perm (List.range G.size)
  inhabited : ∀ c ∈ cs, c ≠ []
  ascending : ∀ c ∈ cs, c.Pairwise (· < ·)
  /-- Two nodes are in one component exactly when each leads to the other. -/
  joined : ∀ v < G.size, ∀ w < G.size, (∃ c ∈ cs, v ∈ c ∧ w ∈ c) ↔ Mutual G.Edge v w
  /-- No component leads to a later one. -/
  ordered : cs.Pairwise fun c d => ∀ v ∈ c, ∀ w ∈ d, ¬ ReflTransGen G.Edge v w

namespace Settled

theorem inhabited (h : G.Settled out) (hc : c ∈ out) : c ≠ [] := by
  induction h with
  | nil => exact absurd hc List.not_mem_nil
  | snoc _ inhabited _ _ _ ih =>
    obtain hc | hc := List.mem_append.mp hc
    · exact ih hc
    · exact List.mem_singleton.mp hc ▸ inhabited

theorem ascending (h : G.Settled out) (hc : c ∈ out) : c.Pairwise (· < ·) := by
  induction h with
  | nil => exact absurd hc List.not_mem_nil
  | snoc _ _ ascending _ _ ih =>
    obtain hc | hc := List.mem_append.mp hc
    · exact ih hc
    · exact List.mem_singleton.mp hc ▸ ascending

theorem joined (h : G.Settled out) (hc : c ∈ out) (hv : v ∈ c) (hw : w ∈ c) : Mutual G.Edge v w := by
  induction h with
  | nil => exact absurd hc List.not_mem_nil
  | snoc _ _ _ joined _ ih =>
    obtain hc | hc := List.mem_append.mp hc
    · exact ih hc
    · obtain rfl := List.mem_singleton.mp hc
      exact joined v hv w hw

/-- Nodes that lead to each other are completed together. -/
theorem exists_of_mutual (h : G.Settled out) (hv : v ∈ out.flatten) (hw : w ∈ out.flatten)
    (hmutual : Mutual G.Edge v w) : ∃ c ∈ out, v ∈ c ∧ w ∈ c := by
  induction h with
  | nil => exact absurd hv List.not_mem_nil
  | @snoc out c earlier _ _ _ _ ih =>
    have hboth : v ∈ out.flatten ↔ w ∈ out.flatten :=
      ⟨fun hv => earlier.mem_of_leads hv hmutual.1, fun hw => earlier.mem_of_leads hw hmutual.2⟩
    rw [mem_flatten_snoc_iff] at hv hw
    by_cases hearlier : v ∈ out.flatten
    · obtain ⟨d, hd, hmem⟩ := ih hearlier (hboth.mp hearlier)
      exact ⟨d, List.mem_append_left _ hd, hmem⟩
    · refine ⟨c, List.mem_append_right _ List.mem_cons_self, hv.resolve_left hearlier, ?_⟩
      exact hw.resolve_left (mt hboth.mpr hearlier)

/-- Nothing leads to a component that is completed later. -/
theorem ordered (h : G.Settled out) (hnodup : out.flatten.Nodup) :
    out.Pairwise fun c d => ∀ v ∈ c, ∀ w ∈ d, ¬ ReflTransGen G.Edge v w := by
  induction h with
  | nil => exact .nil
  | @snoc out c earlier _ _ _ _ ih =>
    rw [List.flatten_append, List.flatten_singleton, List.nodup_append] at hnodup
    refine List.pairwise_append.mpr ⟨ih hnodup.1, List.pairwise_singleton _ _, fun d hd c' hc' => ?_⟩
    obtain rfl := List.mem_singleton.mp hc'
    intro v hv w hw hwalk
    have hmem := earlier.mem_of_leads (List.mem_flatten_of_mem hd hv) hwalk
    exact hnodup.2.2 w hmem w hw rfl

end Settled

theorem nodup_components (G : Digraph) : G.components.flatten.Nodup :=
  (components_partition G).nodup_iff.mpr List.nodup_range

theorem mem_flatten_components_iff : v ∈ G.components.flatten ↔ v < G.size :=
  (components_partition G).mem_iff.trans List.mem_range

theorem exists_component (hv : v < G.size) : ∃ c ∈ G.components, v ∈ c :=
  List.mem_flatten.mp (mem_flatten_components_iff.mpr hv)

theorem lt_size_of_mem_component (hc : c ∈ G.components) (hv : v ∈ c) : v < G.size :=
  mem_flatten_components_iff.mp (List.mem_flatten_of_mem hc hv)

theorem component_ne_nil (hc : c ∈ G.components) : c ≠ [] :=
  (settled_components G).inhabited hc

theorem components_disjoint : G.components.Pairwise List.Disjoint :=
  (List.nodup_flatten.mp (nodup_components G)).2

theorem components_ordered (G : Digraph) :
    G.components.Pairwise fun c d => ∀ v ∈ c, ∀ w ∈ d, ¬ ReflTransGen G.Edge v w :=
  (settled_components G).ordered (nodup_components G)

theorem exists_component_iff (hv : v < G.size) (hw : w < G.size) :
    (∃ c ∈ G.components, v ∈ c ∧ w ∈ c) ↔ Mutual G.Edge v w := by
  constructor
  · rintro ⟨c, hc, hvc, hwc⟩
    exact (settled_components G).joined hc hvc hwc
  · exact (settled_components G).exists_of_mutual (mem_flatten_components_iff.mpr hv)
      (mem_flatten_components_iff.mpr hw)

/-- The nodes of a component are those that lead to one of its nodes and back. -/
theorem mem_component_iff (hc : c ∈ G.components) (hv : v ∈ c) :
    w ∈ c ↔ w < G.size ∧ Mutual G.Edge v w := by
  have hlt := lt_size_of_mem_component hc hv
  refine ⟨fun hw => ?_, fun ⟨hw, hmutual⟩ => ?_⟩
  · have hw' := lt_size_of_mem_component hc hw
    exact ⟨hw', (exists_component_iff hlt hw').mp ⟨c, hc, hv, hw⟩⟩
  · obtain ⟨d, hd, hvd, hwd⟩ := (exists_component_iff hlt hw).mpr hmutual
    have : Std.Symm (List.Disjoint (α := Nat)) := ⟨fun _ _ h => h.symm⟩
    by_contra hwc
    have hne : c ≠ d := fun heq => hwc (heq ▸ hwd)
    exact components_disjoint.forall hc hd hne hv hvd

/-- The components are the strongly connected components, in the order of dependence. -/
theorem components_condense (G : Digraph) : G.Condenses G.components where
  partition := components_partition G
  inhabited _ := component_ne_nil
  ascending _ := (settled_components G).ascending
  joined _ hv _ hw := exists_component_iff hv hw
  ordered := components_ordered G

end Digraph

namespace KeyedGraph

variable {κ : Type} {g : KeyedGraph κ} {k : κ}

theorem exists_component (hk : k ∈ g.keys) : ∃ c ∈ g.components, k ∈ c := by
  obtain ⟨i, hi⟩ := List.getElem?_of_mem hk
  obtain ⟨c, hc, hmem⟩ := Digraph.exists_component (G := g.toDigraph) (List.getElem?_eq_some_iff.mp hi).1
  exact ⟨_, List.mem_map_of_mem hc, mem_keysAt.mpr ⟨i, hmem, hi⟩⟩

section Represents

variable {V : κ → Prop} {E : κ → κ → Prop} {a b : κ} {c : List κ}

theorem reflTransGen_iff_toDigraph (h : g.Sound) {i j : Nat} (hi : g.keys[i]? = some a)
    (hj : g.keys[j]? = some b) : ReflTransGen g.Edge a b ↔ ReflTransGen g.toDigraph.Edge i j := by
  have hwalk : TransGen g.Edge a b ↔ TransGen g.toDigraph.Edge i j := by
    simpa using transGen_iff_toDigraph h (fun _ _ => True) (fun _ _ => True) (fun _ _ => .rfl) hi hj
  have heq : b = a ↔ j = i := by
    refine ⟨fun hba => h.index_inj hj (hba ▸ hi), ?_⟩
    rintro rfl
    exact Option.some.inj (hj.symm.trans hi)
  rw [reflTransGen_iff_eq_or_transGen, reflTransGen_iff_eq_or_transGen, heq, hwalk]

theorem mutual_iff_toDigraph (h : g.Sound) {i j : Nat} (hi : g.keys[i]? = some a)
    (hj : g.keys[j]? = some b) : Mutual g.Edge a b ↔ Mutual g.toDigraph.Edge i j :=
  and_congr (reflTransGen_iff_toDigraph h hi hj) (reflTransGen_iff_toDigraph h hj hi)

/-- The keys of a component are those that lead to one of them and back. -/
theorem Represents.mem_component_iff (h : g.Represents V E) (hc : c ∈ g.components) (ha : a ∈ c) :
    b ∈ c ↔ V b ∧ Mutual E a b := by
  obtain rfl : g.Edge = E := funext fun x => funext fun y => propext (h.edges x y)
  obtain ⟨nodes, hnodes, rfl⟩ := List.mem_map.mp hc
  obtain ⟨i, hi, hia⟩ := mem_keysAt.mp ha
  rw [mem_keysAt, ← h.keys]
  constructor
  · rintro ⟨j, hj, hjb⟩
    have hmutual := ((Digraph.mem_component_iff hnodes hi).mp hj).2
    exact ⟨List.mem_of_getElem? hjb, (mutual_iff_toDigraph h.sound hia hjb).mpr hmutual⟩
  · rintro ⟨hb, hmutual⟩
    obtain ⟨j, hjb⟩ := List.getElem?_of_mem hb
    refine ⟨j, (Digraph.mem_component_iff hnodes hi).mpr ⟨?_, ?_⟩, hjb⟩
    · exact (List.getElem?_eq_some_iff.mp hjb).1
    · exact (mutual_iff_toDigraph h.sound hia hjb).mp hmutual

theorem Sound.components_disjoint (h : g.Sound) : g.components.Pairwise List.Disjoint := by
  refine List.Pairwise.map _ (fun c c' hdisjoint k hk hk' => ?_) Digraph.components_disjoint
  obtain ⟨i, hi, hik⟩ := mem_keysAt.mp hk
  obtain ⟨j, hj, hjk⟩ := mem_keysAt.mp hk'
  exact hdisjoint hi (h.index_inj hik hjk ▸ hj)

end Represents

variable [BEq κ] [LawfulBEq κ]

theorem keys_subset_addNode (g : KeyedGraph κ) (k : κ) : g.keys ⊆ (g.addNode k).keys := by
  intro a ha
  obtain ⟨i, hi⟩ := List.getElem?_of_mem ha
  exact List.mem_of_getElem? (insert_keeps hi k)

theorem keys_subset_addEdge (g : KeyedGraph κ) (a b : κ) : g.keys ⊆ (g.addEdge a b).keys :=
  List.Subset.trans (keys_subset_addNode g a) (keys_subset_addNode (g.addNode a) b)

theorem keys_subset_addEdges (g : KeyedGraph κ) (a : κ) (bs : List κ) :
    g.keys ⊆ (bs.foldl (fun g b => g.addEdge a b) g).keys := by
  induction bs generalizing g with
  | nil => exact List.Subset.refl _
  | cons b bs ih => exact List.Subset.trans (keys_subset_addEdge g a b) (ih _)

end KeyedGraph

end Schemata
