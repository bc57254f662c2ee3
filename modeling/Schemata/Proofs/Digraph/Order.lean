import Schemata.Proofs.Digraph.Schedules

/-!
# Dependency order

`sort` succeeds exactly on the graphs without a cycle through two or more nodes and without an index
out of range. It then returns the least schedule: the one that comes first in the order of lists. If it
fails for a cycle, it names the nodes that lie on one or depend on one.
-/

namespace Schemata.Digraph

open Relation

variable {G : Digraph} {v d : Nat} {placed order : List Nat}

theorem stray?_eq_none_iff : G.stray? = none ↔ G.InRange := by
  simp only [InRange, stray?, List.findSome?_eq_none_iff, List.mem_range, Option.map_eq_none_iff,
    List.find?_eq_none, Option.isNone_iff_eq_none, node?, ite_eq_right_iff, reduceCtorEq,
    imp_false, not_not]

/-- What is placed when nothing more can be: every other node needs one that is not placed either. -/
structure Stopped (G : Digraph) (order : List Nat) : Prop where
  placed : G.Placed order
  waiting : ∀ v < G.size, v ∉ order → ∃ d, G.Needs v d ∧ d ∉ order

/-- At the end either all nodes are placed or nothing more can be. A node that is not placed then waits for
another. -/
theorem Counts.ended {s : Sorting} (h : G.Counts s) (hstop : s.placed.size = G.size ∨ s.ready = []) :
    G.Stopped s.placed.toList ∧ ∀ v < G.size, 0 < s.missing v ↔ v ∉ s.placed.toList := by
  have hwaiting : ∀ v < G.size, v ∉ s.placed.toList → ∃ d, G.Needs v d ∧ d ∉ s.placed.toList := by
    intro v hv hnew
    obtain hall | hnone := hstop
    · have hsub : s.placed.toList ⊆ List.range G.size := fun u hu =>
        List.mem_range.mpr (h.placed.nodes u hu)
      have hperm := (List.subperm_of_subset h.placed.nodup hsub).perm_of_length_le (by simp [hall])
      exact absurd (hperm.mem_iff.mpr (List.mem_range.mpr hv)) hnew
    · by_contra hmet
      push Not at hmet
      have hready := (h.ready v).mpr ⟨hv, hnew, hmet⟩
      rw [hnone] at hready
      exact List.not_mem_nil hready
  refine ⟨⟨h.placed, hwaiting⟩, fun v hv => ?_⟩
  rw [h.missing v hv, List.length_pos_iff, Ne, unmet_eq_nil_iff]
  constructor
  · intro hunmet hplaced
    exact hunmet fun d hd => h.placed.mem_of_leads hplaced (.single hd)
  · intro hnew hmet
    obtain ⟨d, hd, hdnew⟩ := hwaiting v hv hnew
    exact hdnew (hmet d hd)

/-- What a sort can come to. -/
theorem sort_cases {r : Except SortError (List Nat)} (h : G.sort = r) :
    (∃ v i, r = .error (.outOfRange v i) ∧ G.stray? = some (v, i)) ∨
    (∃ order, r = .ok order ∧ G.Placed order ∧ G.Schedule order) ∨
    (∃ stuck placed, r = .error (.cycle stuck) ∧ G.Stopped placed ∧
      stuck = (List.range G.size).filter (· ∉ placed) ∧ stuck ≠ []) := by
  subst h
  unfold sort
  split
  case h_1 v i hstray => exact .inl ⟨v, i, rfl, hstray⟩
  case h_2 =>
    dsimp only
    obtain ⟨hcounts, hstop⟩ := (counts_unsorted G).place G.size
    rw [show G.unsorted.placed.size = 0 from rfl, Nat.zero_add] at hstop
    generalize Sorting.place G.dependents G.size G.unsorted = s at hcounts hstop
    obtain ⟨hstopped, hmissing⟩ := hcounts.ended hstop
    have hplaced := hcounts.placed
    have hsub : s.placed.toList ⊆ List.range G.size := fun u hu => List.mem_range.mpr (hplaced.nodes u hu)
    have hsubperm := List.subperm_of_subset hplaced.nodup hsub
    split
    case isTrue hall =>
      refine .inr (.inl ⟨_, rfl, hplaced, hsubperm.perm_of_length_le (by simp [hall]), hplaced.ordered⟩)
    case isFalse hsome =>
      have hstuck : ((List.range G.size).filter fun v => 0 < s.missing v) =
          (List.range G.size).filter (· ∉ s.placed.toList) :=
        List.filter_congr fun v hv => by simp only [hmissing v (List.mem_range.mp hv)]
      refine .inr (.inr ⟨_, s.placed.toList, rfl, hstopped, hstuck, fun hnil => hsome ?_⟩)
      rw [hstuck, List.filter_eq_nil_iff] at hnil
      have hall : List.range G.size ⊆ s.placed.toList := fun v hv => by simpa using hnil v hv
      have hlength := (List.subperm_of_subset List.nodup_range hall).length_le
      rw [List.length_range, Array.length_toList] at hlength
      have hle := hsubperm.length_le
      rw [List.length_range, Array.length_toList] at hle
      omega

-- ---------------------------------------------------------------------------
-- Success
-- ---------------------------------------------------------------------------

theorem sort_placed (h : G.sort = .ok order) : G.Placed order := by
  obtain ⟨_, _, he, _⟩ | ⟨_, he, hplaced, _⟩ | ⟨_, _, he, _⟩ := sort_cases h
  · cases he
  · cases he
    exact hplaced
  · cases he

theorem schedule_sort (h : G.sort = .ok order) : G.Schedule order := by
  obtain ⟨_, _, he, _⟩ | ⟨_, he, _, hschedule⟩ | ⟨_, _, he, _⟩ := sort_cases h
  · cases he
  · cases he
    exact hschedule
  · cases he

theorem sort_perm (h : G.sort = .ok order) : order.Perm (List.range G.size) :=
  (schedule_sort h).perm

/-- Whatever needs itself in a circle is a node. -/
theorem lt_size_of_circle (h : TransGen G.Needs v v) : v < G.size := by
  obtain ⟨u, -, hu, -⟩ := TransGen.tail'_iff.mp h
  exact lt_size_of_mem_next hu

theorem not_cyclic_of_sort (h : G.sort = .ok order) : ¬ G.Cyclic := by
  rintro ⟨v, hcircle⟩
  have hmem := (sort_perm h).mem_iff.mpr (List.mem_range.mpr (lt_size_of_circle hcircle))
  exact (sort_placed h).not_circle hmem hcircle

-- ---------------------------------------------------------------------------
-- Failure
-- ---------------------------------------------------------------------------

/-- A node cannot be placed exactly if it leads to a circle. -/
theorem Stopped.not_mem_iff (h : G.Stopped placed) (hv : v < G.size) :
    v ∉ placed ↔ ∃ c, ReflTransGen G.Needs v c ∧ TransGen G.Needs c c := by
  constructor
  · intro hnew
    -- the nodes that `v` leads to and that are not placed wait for each other
    obtain ⟨c, ⟨hwalk, -⟩, hcircle⟩ := exists_circle_of_waiting
      (fun u => ReflTransGen G.Needs v u ∧ u < G.size ∧ u ∉ placed) ⟨.refl, hv, hnew⟩
      (fun u hu => hu.2.1) fun u ⟨hwalk, hu, hunew⟩ => by
        obtain ⟨d, hd, hdnew⟩ := h.waiting u hu hunew
        exact ⟨d, hd, hwalk.tail hd, lt_size_of_mem_next hd.1, hdnew⟩
    exact ⟨c, hwalk, hcircle⟩
  · rintro ⟨c, hwalk, hcircle⟩ hmem
    exact h.placed.not_circle (h.placed.mem_of_leads hmem hwalk) hcircle

/-- The nodes that lead to a circle, ascending. -/
theorem mem_stuck_iff {stuck : List Nat} (h : G.sort = .error (.cycle stuck)) :
    stuck.Pairwise (· < ·) ∧
      ∀ v, v ∈ stuck ↔ v < G.size ∧ ∃ c, ReflTransGen G.Needs v c ∧ TransGen G.Needs c c := by
  obtain ⟨_, _, he, _⟩ | ⟨_, he, _⟩ | ⟨_, placed, he, hstopped, hstuck, -⟩ := sort_cases h
  · cases he
  · cases he
  · cases he
    subst hstuck
    refine ⟨List.pairwise_lt_range.filter _, fun v => ?_⟩
    rw [List.mem_filter, List.mem_range, decide_eq_true_eq]
    exact and_congr_right fun hv => hstopped.not_mem_iff hv

theorem cyclic_of_sort {stuck : List Nat} (h : G.sort = .error (.cycle stuck)) : G.Cyclic := by
  have hne : stuck ≠ [] := by
    obtain ⟨_, _, he, _⟩ | ⟨_, he, _⟩ | ⟨_, _, he, -, -, hne⟩ := sort_cases h
    · cases he
    · cases he
    · cases he
      exact hne
  obtain ⟨v, hv⟩ := List.exists_mem_of_ne_nil _ hne
  obtain ⟨-, c, -, hcircle⟩ := ((mem_stuck_iff h).2 v).mp hv
  exact ⟨c, hcircle⟩

-- ---------------------------------------------------------------------------
-- Main results
-- ---------------------------------------------------------------------------

theorem sort_ne_outOfRange (h : G.InRange) (v : Nat) (i : Int) : G.sort ≠ .error (.outOfRange v i) := by
  intro hsort
  obtain ⟨u, j, -, hstray⟩ | ⟨_, he, _⟩ | ⟨_, _, he, _⟩ := sort_cases hsort
  · rw [stray?_eq_none_iff.mpr h] at hstray
    cases hstray
  · cases he
  · cases he

/-- The nodes of a graph without a cycle are put into the least of all orders in which every node comes after
its dependencies. -/
theorem sort_least_schedule (hnodes : G.InRange) (hacyclic : ¬ G.Cyclic) :
    ∃ order, G.sort = .ok order ∧ G.Schedule order ∧ ∀ other, G.Schedule other → order ≤ other := by
  cases hsort : G.sort with
  | error e =>
    cases e with
    | outOfRange v i => exact absurd hsort (sort_ne_outOfRange hnodes v i)
    | cycle stuck => exact absurd (cyclic_of_sort hsort) hacyclic
  | ok order =>
    have hschedule := schedule_sort hsort
    refine ⟨order, rfl, hschedule, fun other hother => ?_⟩
    exact (sort_placed hsort).greedy.le_schedule hother (hschedule.perm.trans hother.perm.symm).length_eq

namespace Doubled

/-- Two nodes need the last, one of them twice over, and one node names itself. -/
def graph : Digraph :=
  .ofLists 4 [[3], [3, 3], [2]]

theorem acyclic : ¬ graph.Cyclic :=
  not_cyclic_of_sort (show graph.sort = .ok [2, 3, 0, 1] by decide +kernel)

theorem least_schedule : graph.InRange ∧ ¬ graph.Cyclic ∧
    ∃ order, graph.sort = .ok order ∧ graph.Schedule order ∧ ∀ other, graph.Schedule other → order ≤ other :=
  have hnodes : graph.InRange := by unfold InRange; decide +kernel
  ⟨hnodes, acyclic, sort_least_schedule hnodes acyclic⟩

end Doubled

/-- Sorting fails for a cycle exactly if one goes through two or more nodes, and then names, in ascending
order, the nodes on such cycles and all that depend on these. -/
theorem sort_names_stuck (hnodes : G.InRange) :
    ((∃ stuck, G.sort = .error (.cycle stuck)) ↔ ∃ v, G.OnCycle v) ∧
    ∀ stuck, G.sort = .error (.cycle stuck) → stuck.Pairwise (· < ·) ∧
      ∀ v, v ∈ stuck ↔ v < G.size ∧ ∃ c, G.OnCycle c ∧ ReflTransGen G.Edge v c := by
  have hcyclic : (∃ v, G.OnCycle v) ↔ G.Cyclic := exists_congr fun _ => transGen_needs_self_iff.symm
  refine ⟨⟨fun ⟨stuck, h⟩ => hcyclic.mpr (cyclic_of_sort h), fun h => ?_⟩, fun stuck h => ?_⟩
  · cases hsort : G.sort with
    | error e =>
      cases e with
      | outOfRange v i => exact absurd hsort (sort_ne_outOfRange hnodes v i)
      | cycle stuck => exact ⟨stuck, rfl⟩
    | ok order => exact absurd (hcyclic.mp h) (not_cyclic_of_sort hsort)
  · obtain ⟨hascending, hmem⟩ := mem_stuck_iff h
    refine ⟨hascending, fun v => (hmem v).trans (and_congr_right fun _ => exists_congr fun c => ?_)⟩
    rw [reflTransGen_needs_iff, and_comm]
    exact and_congr_left fun _ => transGen_needs_self_iff

namespace Deadlocked

/-- Two nodes need each other, a third needs one of them, and of two others one names itself. -/
def graph : Digraph :=
  .ofLists 5 [[1], [0], [1], [3]]

theorem names_stuck : graph.InRange ∧ (∃ v, graph.OnCycle v) ∧
    ∀ v, v ∈ [0, 1, 2] ↔ v < graph.size ∧ ∃ c, graph.OnCycle c ∧ ReflTransGen graph.Edge v c := by
  have hnodes : graph.InRange := by unfold InRange; decide +kernel
  have hsort : graph.sort = .error (.cycle [0, 1, 2]) := by decide +kernel
  obtain ⟨hfails, hstuck⟩ := sort_names_stuck hnodes
  exact ⟨hnodes, hfails.mp ⟨_, hsort⟩, (hstuck _ hsort).2⟩

end Deadlocked

end Schemata.Digraph
