import Mathlib.Data.Fintype.EquivFin
import Mathlib.Data.List.Lex
import Mathlib.Data.List.Perm.Basic
import Mathlib.Logic.Relation
import Mathlib.Order.WellFounded
import Schemata.Digraph.Sort
import Schemata.Proofs.Lists

/-!
# Walks and schedules

`reach v` lists exactly the nodes at the end of a walk of at least one edge from `v`. The search
behind it marks a new node at every level, so a number of levels beyond the number of unmarked
nodes is never used up.

A schedule lists every node once, after all that the node needs. A list that always goes on with the
smallest node that can come next is the least of all schedules, and nodes that all wait for one another
contain a circle.

A sort keeps a number for each node and a list of nodes. `Counts` says what they stand for: the number of
those nodes that are needed and not placed, and the nodes that can come next. Placing a node and releasing its
dependents keeps that up, so the node placed next is always the smallest that can come next.
-/

-- ---------------------------------------------------------------------------
-- Walks
-- ---------------------------------------------------------------------------

namespace Schemata.Digraph

open Relation

variable {G : Digraph} {v w : Nat}

/-- An edge between two nodes. -/
def Edge (G : Digraph) (v w : Nat) : Prop :=
  w ∈ G.next v

theorem node?_eq_some_iff {i : Int} : G.node? i = some v ↔ i = v ∧ v < G.size := by
  unfold node?
  split
  · simp only [Option.some.injEq]
    omega
  · simp only [reduceCtorEq, false_iff]
    omega

theorem mem_next_iff : w ∈ G.next v ↔ (w : Int) ∈ G.succ v ∧ w < G.size := by
  simp only [next, List.mem_filterMap, node?_eq_some_iff]
  constructor
  · rintro ⟨i, hi, rfl, hw⟩
    exact ⟨hi, hw⟩
  · rintro ⟨hi, hw⟩
    exact ⟨w, hi, rfl, hw⟩

theorem lt_size_of_mem_next (h : w ∈ G.next v) : w < G.size :=
  (mem_next_iff.mp h).2

theorem collect_cons (level u : Nat) (rest seen : List Nat) :
    G.collect (level + 1) (u :: rest) seen =
      G.collect (level + 1) rest
        (if u ∈ seen then seen else G.collect level (G.next u) (u :: seen)) := rfl

/-- Nothing is marked that is not at the end of a walk from a pending node. -/
theorem collect_sound (level : Nat) (pending seen : List Nat)
    (h : w ∈ G.collect level pending seen) :
    w ∈ seen ∨ ∃ v ∈ pending, ReflTransGen G.Edge v w := by
  induction level generalizing pending seen w with
  | zero => exact .inl h
  | succ level ih =>
    induction pending generalizing seen with
    | nil => exact .inl h
    | cons u rest ihRest =>
      rw [collect_cons] at h
      obtain hw | ⟨v, hv, hwalk⟩ := ihRest _ h
      · split at hw
        · exact .inl hw
        · obtain hw | ⟨v, hv, hwalk⟩ := ih _ _ hw
          · obtain rfl | hw := List.mem_cons.mp hw
            · exact .inr ⟨w, List.mem_cons_self, .refl⟩
            · exact .inl hw
          · exact .inr ⟨u, List.mem_cons_self, .head hv hwalk⟩
      · exact .inr ⟨v, List.mem_cons_of_mem _ hv, hwalk⟩

/-- Marks are never taken back. -/
theorem subset_collect (level : Nat) (pending seen : List Nat) :
    seen ⊆ G.collect level pending seen := by
  induction level generalizing pending seen with
  | zero => exact List.Subset.refl _
  | succ level ih =>
    induction pending generalizing seen with
    | nil => exact List.Subset.refl _
    | cons u rest ihRest =>
      rw [collect_cons]
      refine List.Subset.trans ?_ (ihRest _)
      split
      · exact List.Subset.refl _
      · exact List.Subset.trans (List.subset_cons_self _ _) (ih _ _)

/-- The nodes that are not marked. -/
def unmarked (G : Digraph) (seen : List Nat) : List Nat :=
  (List.range G.size).filter fun v => !seen.contains v

theorem length_unmarked_le {seen seen' : List Nat} (h : seen ⊆ seen') :
    (G.unmarked seen').length ≤ (G.unmarked seen).length := by
  have himp : ∀ u, (!seen'.contains u) = true → (!seen.contains u) = true := by
    intro u hu
    simp only [Bool.not_eq_true', List.contains_eq_mem, decide_eq_false_iff_not] at hu ⊢
    exact fun hmem => hu (h hmem)
  exact (List.monotone_filter_right (List.range G.size) himp).length_le

theorem length_unmarked_cons {seen : List Nat} (hv : v < G.size) (hs : v ∉ seen) :
    (G.unmarked (v :: seen)).length < (G.unmarked seen).length := by
  have hcons : G.unmarked (v :: seen) = (G.unmarked seen).filter (· != v) := by
    simp only [unmarked, List.filter_filter]
    refine List.filter_congr fun u _ => ?_
    by_cases h : u = v <;> simp [h]
  have hmem : v ∈ G.unmarked seen := by simp [unmarked, hv, hs]
  rw [hcons]
  exact List.length_filter_lt_length_iff_exists.mpr ⟨v, hmem, by simp⟩

/-- With enough levels the pending nodes are marked, and with every newly marked node all of its
successors. -/
theorem collect_closed (level : Nat) (pending seen : List Nat)
    (hlevel : (G.unmarked seen).length < level) (hp : ∀ v ∈ pending, v < G.size) :
    pending ⊆ G.collect level pending seen ∧
      ∀ v ∈ G.collect level pending seen, v ∈ seen ∨ G.next v ⊆ G.collect level pending seen := by
  induction level generalizing pending seen with
  | zero => omega
  | succ level ih =>
    induction pending generalizing seen with
    | nil => exact ⟨List.nil_subset _, fun v hv => .inl hv⟩
    | cons u rest ihRest =>
      rw [collect_cons]
      have hrest : ∀ v ∈ rest, v < G.size := fun v hv => hp v (List.mem_cons_of_mem _ hv)
      by_cases hu : u ∈ seen
      · rw [if_pos hu]
        obtain ⟨hsub, hclosed⟩ := ihRest seen hlevel hrest
        exact ⟨List.cons_subset.mpr ⟨subset_collect _ _ _ hu, hsub⟩, hclosed⟩
      · rw [if_neg hu]
        -- one level is spent on `u`, which was unmarked
        have hless := length_unmarked_cons (hp u List.mem_cons_self) hu
        obtain ⟨hnext, hinner⟩ := ih (G.next u) (u :: seen) (by omega)
          fun v hv => lt_size_of_mem_next hv
        have hgrow := subset_collect (G := G) level (G.next u) (u :: seen)
        have hfewer := length_unmarked_le (G := G) hgrow
        obtain ⟨hsub, hclosed⟩ := ihRest (G.collect level (G.next u) (u :: seen)) (by omega) hrest
        have hkeep := subset_collect (G := G) (level + 1) rest (G.collect level (G.next u) (u :: seen))
        refine ⟨List.cons_subset.mpr ⟨hkeep (hgrow List.mem_cons_self), hsub⟩, fun v hv => ?_⟩
        obtain hold | hnew := hclosed v hv
        · obtain hseen | hsucc := hinner v hold
          · obtain rfl | hseen := List.mem_cons.mp hseen
            · exact .inr (List.Subset.trans hnext hkeep)
            · exact .inl hseen
          · exact .inr (List.Subset.trans hsucc hkeep)
        · exact .inr hnew

theorem mem_reach_iff : w ∈ G.reach v ↔ TransGen G.Edge v w := by
  have hlevel : (G.unmarked []).length < G.size + 1 := by
    simp [unmarked, List.filter_eq_self.mpr]
  obtain ⟨hnext, hclosed⟩ := collect_closed (G.size + 1) (G.next v) [] hlevel
    fun u hu => lt_size_of_mem_next hu
  constructor
  · intro h
    obtain hw | ⟨u, hu, hwalk⟩ := collect_sound _ _ _ h
    · exact absurd hw List.not_mem_nil
    · exact .head' hu hwalk
  · intro h
    induction h with
    | single hedge => exact hnext hedge
    | tail _ hedge ih =>
      obtain hnil | hsucc := hclosed _ ih
      · exact absurd hnil List.not_mem_nil
      · exact hsucc hedge

theorem reachable_iff {i j : Nat} (hi : i < G.size) (hj : j < G.size) :
    G.reachable i j = true ↔ TransGen G.Edge i j := by
  have hni : G.node? i = some i := node?_eq_some_iff.mpr ⟨rfl, hi⟩
  have hnj : G.node? j = some j := node?_eq_some_iff.mpr ⟨rfl, hj⟩
  simp only [reachable, hni, hnj, List.contains_iff_mem, mem_reach_iff]

end Schemata.Digraph

-- ---------------------------------------------------------------------------
-- Schedules
-- ---------------------------------------------------------------------------

namespace Schemata.Digraph

open Relation

variable {G : Digraph} {v d : Nat} {placed order : List Nat}

/-- All successors of the nodes are nodes. -/
def InRange (G : Digraph) : Prop :=
  ∀ v < G.size, ∀ i ∈ G.succ v, 0 ≤ i ∧ i < G.size

/-- The node `v` depends on the other node `d`. -/
def Needs (G : Digraph) (v d : Nat) : Prop :=
  G.Edge v d ∧ d ≠ v

/-- There is a cycle through two or more nodes. -/
def Cyclic (G : Digraph) : Prop :=
  ∃ v, TransGen G.Needs v v

/-- A node on a cycle through two or more nodes. -/
def OnCycle (G : Digraph) (v : Nat) : Prop :=
  ∃ w, w ≠ v ∧ TransGen G.Edge v w ∧ TransGen G.Edge w v

/-- Every node of a list comes after all that it needs. -/
def Ordered (G : Digraph) (order : List Nat) : Prop :=
  ∀ before v after, order = before ++ v :: after → ∀ d, G.Needs v d → d ∈ before

/-- A node that can come next. -/
def Ready (G : Digraph) (placed : List Nat) (v : Nat) : Prop :=
  v < G.size ∧ v ∉ placed ∧ ∀ d, G.Needs v d → d ∈ placed

/-- No node of a list could have been replaced by a smaller one when its turn came. -/
def Greedy (G : Digraph) (order : List Nat) : Prop :=
  ∀ before v after, order = before ++ v :: after → ∀ u, G.Ready before u → v ≤ u

/-- All nodes, each once and after all that it needs. -/
structure Schedule (G : Digraph) (order : List Nat) : Prop where
  perm : order.Perm (List.range G.size)
  ordered : G.Ordered order

-- ---------------------------------------------------------------------------
-- What is placed so far
-- ---------------------------------------------------------------------------

/-- What is placed is a list of different nodes, each after all that it needs and each the smallest that
could come at its place. -/
structure Placed (G : Digraph) (placed : List Nat) : Prop where
  nodup : placed.Nodup
  nodes : ∀ v ∈ placed, v < G.size
  ordered : G.Ordered placed
  greedy : G.Greedy placed

theorem Placed.nil : G.Placed [] where
  nodup := List.nodup_nil
  nodes := fun _ hv => absurd hv List.not_mem_nil
  ordered := fun before _ _ h => absurd h (by simp)
  greedy := fun before _ _ h => absurd h (by simp)

/-- What holds wherever a list is split holds of a longer list if it holds at its last item. -/
theorem forall_split_snoc {P : List Nat → Nat → Prop}
    (h : ∀ before u after, placed = before ++ u :: after → P before u) (hv : P placed v) :
    ∀ before u after, placed ++ [v] = before ++ u :: after → P before u := by
  intro before u after heq
  obtain rfl | ⟨after, last, rfl⟩ := List.eq_nil_or_concat after
  · obtain ⟨rfl, hlast⟩ := List.append_inj' heq rfl
    obtain rfl : v = u := by simpa using hlast
    exact hv
  · have heq' : placed ++ [v] = (before ++ u :: after) ++ [last] := by simpa using heq
    exact h before u after (List.append_inj' heq' rfl).1

theorem Placed.snoc (h : G.Placed placed) (hready : G.Ready placed v)
    (hleast : ∀ u, G.Ready placed u → v ≤ u) : G.Placed (placed ++ [v]) := by
  obtain ⟨hv, hnew, hneeds⟩ := hready
  refine ⟨?_, ?_, forall_split_snoc h.ordered hneeds, forall_split_snoc h.greedy hleast⟩
  · exact List.nodup_append.mpr ⟨h.nodup, List.nodup_singleton v, by
      rintro a ha _ hb rfl
      exact hnew (List.mem_singleton.mp hb ▸ ha)⟩
  · intro u hu
    obtain hu | hu := List.mem_append.mp hu
    · exact h.nodes u hu
    · exact List.mem_singleton.mp hu ▸ hv

/-- In an ordered list a node comes after all that it leads to. -/
theorem Ordered.idxOf_lt {u w : Nat} (h : G.Ordered order) (hnodup : order.Nodup) (hu : u ∈ order)
    (hwalk : TransGen G.Needs u w) : w ∈ order ∧ order.idxOf w < order.idxOf u := by
  have hstep : ∀ {a b}, a ∈ order → G.Needs a b → b ∈ order ∧ order.idxOf b < order.idxOf a := by
    intro a b ha hab
    obtain ⟨before, after, rfl⟩ := List.append_of_mem ha
    have hb := h before a after rfl b hab
    have hnot : a ∉ before := by
      intro hmem
      exact (List.nodup_append.mp hnodup).2.2 a hmem a List.mem_cons_self rfl
    refine ⟨List.mem_append_left _ hb, ?_⟩
    rw [List.idxOf_append_of_mem hb, List.idxOf_append_of_notMem hnot]
    exact Nat.lt_add_right _ (List.idxOf_lt_length_of_mem hb)
  induction hwalk with
  | single hneeds => exact hstep hu hneeds
  | tail _ hneeds ih =>
    obtain ⟨hmem, hlt⟩ := hstep ih.1 hneeds
    exact ⟨hmem, hlt.trans ih.2⟩

/-- What is placed does not need itself in a circle. -/
theorem Placed.not_circle (h : G.Placed placed) (hv : v ∈ placed) : ¬ TransGen G.Needs v v := fun hcircle =>
  absurd (h.ordered.idxOf_lt h.nodup hv hcircle).2 (Nat.lt_irrefl _)

/-- With a node all that it leads to is placed. -/
theorem Placed.mem_of_leads (h : G.Placed placed) (hv : v ∈ placed) (hwalk : ReflTransGen G.Needs v d) :
    d ∈ placed := by
  obtain rfl | hwalk := reflTransGen_iff_eq_or_transGen.mp hwalk
  · exact hv
  · exact (h.ordered.idxOf_lt h.nodup hv hwalk).1

-- ---------------------------------------------------------------------------
-- The least schedule
-- ---------------------------------------------------------------------------

/-- The node with which a schedule goes on can come next. -/
theorem Schedule.ready {before after : List Nat} (h : G.Schedule (before ++ v :: after)) :
    G.Ready before v := by
  have hnodup : (before ++ v :: after).Nodup := h.perm.nodup_iff.mpr List.nodup_range
  refine ⟨List.mem_range.mp (h.perm.mem_iff.mp (by simp)), fun hmem => ?_, h.ordered before v after rfl⟩
  exact (List.nodup_append.mp hnodup).2.2 v hmem v List.mem_cons_self rfl

/-- A greedy list comes before every schedule. -/
theorem Greedy.le_schedule (h : G.Greedy order) {other : List Nat} (hother : G.Schedule other)
    (hlength : order.length = other.length) : order ≤ other := by
  -- up to where they part the two lists are one, and there the greedy list has the smaller node
  suffices hrest : ∀ before rest rest' : List Nat, order = before ++ rest → other = before ++ rest' →
      rest.length = rest'.length → rest ≤ rest' from hrest [] order other rfl rfl hlength
  intro before rest
  induction rest generalizing before with
  | nil => exact fun rest' _ _ hlen => (List.eq_nil_of_length_eq_zero hlen.symm).ge
  | cons v rest ih =>
    intro rest' horder hsplit hlen
    cases rest' with
    | nil => exact absurd hlen (by simp)
    | cons u rest' =>
      subst hsplit
      obtain hlt | rfl := Nat.lt_or_eq_of_le (h before v rest horder u hother.ready)
      · exact le_of_lt (List.Lex.rel hlt)
      · refine List.cons_le_cons v (ih (before ++ [v]) rest' ?_ ?_ ?_)
        · simpa using horder
        · simp
        · simpa using hlen

-- ---------------------------------------------------------------------------
-- Circles
-- ---------------------------------------------------------------------------

/-- Nodes that all wait for each other contain a circle. -/
theorem exists_circle_of_waiting (waiting : Nat → Prop) (hv : waiting v)
    (hsize : ∀ v, waiting v → v < G.size)
    (hnext : ∀ v, waiting v → ∃ d, G.Needs v d ∧ waiting d) :
    ∃ c, waiting c ∧ TransGen G.Needs c c := by
  by_contra hnone
  have : Finite {u // waiting u} :=
    Finite.of_injective (fun u => (⟨u.1, hsize u.1 u.2⟩ : Fin G.size)) fun a b h =>
      Subtype.ext (congrArg Fin.val h)
  let r : {u // waiting u} → {u // waiting u} → Prop := fun a b => TransGen G.Needs b.1 a.1
  have : IsTrans {u // waiting u} r := ⟨fun _ _ _ hab hbc => hbc.trans hab⟩
  have : Std.Irrefl r := ⟨fun a ha => hnone ⟨a.1, a.2, ha⟩⟩
  have hwf : WellFounded r := Finite.wellFounded_of_trans_of_irrefl r
  obtain ⟨m, -, hmin⟩ := hwf.has_min Set.univ ⟨⟨v, hv⟩, Set.mem_univ _⟩
  obtain ⟨d, hneeds, hd⟩ := hnext m.1 m.2
  exact hmin ⟨d, hd⟩ (Set.mem_univ _) (.single hneeds)

section Relations

variable {α : Type} {r : α → α → Prop} {a b : α}

/-- Steps that lead nowhere else are not needed on a way. -/
theorem reflTransGen_ne_iff : ReflTransGen (fun a b => r a b ∧ b ≠ a) a b ↔ ReflTransGen r a b := by
  refine ⟨fun hwalk => hwalk.lift id fun _ _ h => h.1, fun hwalk => hwalk.lift' id fun a b hab => ?_⟩
  by_cases hne : b = a
  · exact hne ▸ .refl
  · exact .single ⟨hab, hne⟩

/-- A circle of steps that each lead elsewhere goes through two or more items. -/
theorem transGen_ne_self_iff : TransGen (fun a b => r a b ∧ b ≠ a) a a ↔
    ∃ b, b ≠ a ∧ TransGen r a b ∧ TransGen r b a := by
  constructor
  · intro hcircle
    obtain ⟨b, hab, hba⟩ := TransGen.head'_iff.mp hcircle
    refine ⟨b, hab.2, .single hab.1, ?_⟩
    obtain rfl | hback := reflTransGen_iff_eq_or_transGen.mp (reflTransGen_ne_iff.mp hba)
    · exact absurd rfl hab.2
    · exact hback
  · rintro ⟨b, hne, hab, hba⟩
    have hthere := reflTransGen_ne_iff.mpr hab.to_reflTransGen
    have hback := reflTransGen_ne_iff.mpr hba.to_reflTransGen
    obtain rfl | hthere := reflTransGen_iff_eq_or_transGen.mp hthere
    · exact absurd rfl hne
    · exact hthere.trans_left hback

end Relations

theorem reflTransGen_needs_iff : ReflTransGen G.Needs v d ↔ ReflTransGen G.Edge v d :=
  reflTransGen_ne_iff

theorem transGen_needs_self_iff : TransGen G.Needs v v ↔ G.OnCycle v :=
  transGen_ne_self_iff

end Schemata.Digraph

-- ---------------------------------------------------------------------------
-- Needs and dependents
-- ---------------------------------------------------------------------------

namespace Schemata.Digraph

variable {G : Digraph} {v d u : Nat} {placed : List Nat} {s : Sorting}

theorem mem_needs_iff : d ∈ G.needs v ↔ G.Needs v d := by
  simp [needs, Needs, Edge]

theorem nodup_needs (G : Digraph) (v : Nat) : (G.needs v).Nodup :=
  Lists.nodup_eraseDups _

theorem getElem?_enlist (table : Array (List Nat)) (v d : Nat) :
    (G.enlist table v)[d]? = table[d]?.map (· ++ if d ∈ G.needs v then [v] else []) := by
  have hrun : ∀ (ds : List Nat) (table : Array (List Nat)), ds.Nodup →
      (ds.foldl (fun table d => table.modify d (· ++ [v])) table)[d]? =
        table[d]?.map (· ++ if d ∈ ds then [v] else []) := by
    intro ds
    induction ds with
    | nil => simp
    | cons e ds ih =>
      intro table hnodup
      obtain ⟨hnew, hnodup⟩ := List.nodup_cons.mp hnodup
      rw [List.foldl_cons, ih _ hnodup, Array.getElem?_modify]
      by_cases hed : e = d
      · subst hed
        simp only [hnew, if_true, if_false, List.append_nil, List.mem_cons_self, Option.map_map]
        rfl
      · simp [hed, Ne.symm hed]
  exact hrun _ table (nodup_needs G v)

/-- The nodes that need a node. -/
def waiters (G : Digraph) (d : Nat) : List Nat :=
  (List.range G.size).filter fun v => d ∈ G.needs v

theorem mem_waiters_iff : v ∈ G.waiters d ↔ v < G.size ∧ d ∈ G.needs v := by
  simp [waiters]

theorem nodup_waiters (G : Digraph) (d : Nat) : (G.waiters d).Nodup :=
  List.nodup_range.filter _

theorem getElem?_dependents (hd : d < G.size) : G.dependents[d]? = some (G.waiters d) := by
  have hrun : ∀ (vs : List Nat) (table : Array (List Nat)),
      (vs.foldl G.enlist table)[d]? = table[d]?.map (· ++ vs.filter fun v => d ∈ G.needs v) := by
    intro vs
    induction vs with
    | nil => simp
    | cons v vs ih =>
      intro table
      rw [List.foldl_cons, ih, getElem?_enlist, Option.map_map]
      congr 1
      funext l
      by_cases h : d ∈ G.needs v <;> simp [h]
  rw [dependents, hrun, Array.getElem?_replicate, if_pos hd]
  rfl

-- ---------------------------------------------------------------------------
-- Releasing
-- ---------------------------------------------------------------------------

theorem perm_lineUp (v : Nat) (ready : List Nat) : (lineUp v ready).Perm (v :: ready) := by
  induction ready with
  | nil => exact .refl _
  | cons w rest ih =>
    rw [lineUp]
    split
    · exact (ih.cons w).trans (.swap v w rest)
    · exact .refl _

theorem mem_lineUp_iff {ready : List Nat} : u ∈ lineUp v ready ↔ u = v ∨ u ∈ ready :=
  (perm_lineUp v ready).mem_iff.trans List.mem_cons

theorem pairwise_lineUp {ready : List Nat} (h : ready.Pairwise (· < ·)) (hnew : v ∉ ready) :
    (lineUp v ready).Pairwise (· < ·) := by
  induction ready with
  | nil => exact List.pairwise_singleton _ v
  | cons w rest ih =>
    obtain ⟨hw, hrest⟩ := List.pairwise_cons.mp h
    obtain ⟨hvw, hnew⟩ := not_or.mp (mt List.mem_cons.mpr hnew)
    rw [lineUp]
    split
    case isTrue hlt =>
      refine List.pairwise_cons.mpr ⟨fun u hu => ?_, ih hrest hnew⟩
      obtain rfl | hu := mem_lineUp_iff.mp hu
      · exact hlt
      · exact hw u hu
    case isFalse hge =>
      have hlt : v < w := by omega
      refine List.pairwise_cons.mpr ⟨fun u hu => ?_, h⟩
      obtain rfl | hu := List.mem_cons.mp hu
      · exact hlt
      · exact hlt.trans (hw u hu)

namespace Sorting

theorem missing_release (s : Sorting) (v u : Nat) :
    (s.release v).missing u = if u = v then s.missing u - 1 else s.missing u := by
  simp only [missing, release, Array.getElem?_setIfInBounds]
  by_cases huv : u = v
  · subst huv
    by_cases hsize : u < s.waits.size
    · simp [hsize]
    · simp [hsize]
  · simp [huv, Ne.symm huv]

theorem mem_ready_release_iff : u ∈ (s.release v).ready ↔ u ∈ s.ready ∨ u = v ∧ s.missing u - 1 = 0 := by
  rw [release]
  dsimp only
  split
  case isTrue hzero =>
    rw [mem_lineUp_iff, or_comm]
    refine or_congr_right (iff_self_and.mpr ?_)
    rintro rfl
    exact hzero
  case isFalse hleft =>
    refine (or_iff_left ?_).symm
    rintro ⟨rfl, hzero⟩
    exact hleft hzero

/-- What releasing nodes makes of a sort. -/
structure Released (vs : List Nat) (s s' : Sorting) : Prop where
  placed : s'.placed = s.placed
  missing : ∀ u, s'.missing u = if u ∈ vs then s.missing u - 1 else s.missing u
  ready : ∀ u, u ∈ s'.ready ↔ u ∈ s.ready ∨ u ∈ vs ∧ s.missing u - 1 = 0
  ascending : s.ready.Pairwise (· < ·) → (∀ u ∈ vs, u ∉ s.ready) → s'.ready.Pairwise (· < ·)

theorem released_foldl {vs : List Nat} (hnodup : vs.Nodup) (s : Sorting) :
    Released vs s (vs.foldl release s) := by
  induction vs generalizing s with
  | nil => exact ⟨rfl, by simp, by simp, fun h _ => h⟩
  | cons v vs ih =>
    obtain ⟨hnew, hnodup⟩ := List.nodup_cons.mp hnodup
    have hrest := ih hnodup (s.release v)
    have hother : ∀ u ∈ vs, u ≠ v := fun u hu huv => hnew (huv ▸ hu)
    refine ⟨hrest.placed, fun u => ?_, fun u => ?_, fun hs hfresh => ?_⟩
    · rw [List.foldl_cons, hrest.missing, missing_release]
      by_cases hu : u ∈ vs
      · simp [hu, hother u hu]
      · simp [hu]
    · rw [List.foldl_cons, hrest.ready, mem_ready_release_iff, missing_release]
      by_cases hu : u ∈ vs
      · simp [hu, hother u hu]
      · simp [hu]
    · refine hrest.ascending ?_ fun u hu hmem => ?_
      · rw [release]
        dsimp only
        split
        · exact pairwise_lineUp hs (hfresh v List.mem_cons_self)
        · exact hs
      · obtain hmem | ⟨huv, -⟩ := mem_ready_release_iff.mp hmem
        · exact hfresh u (List.mem_cons_of_mem _ hu) hmem
        · exact hother u hu huv

end Sorting

-- ---------------------------------------------------------------------------
-- What the numbers stand for
-- ---------------------------------------------------------------------------

/-- Those that a node needs and that are not placed. -/
def unmet (G : Digraph) (placed : List Nat) (v : Nat) : List Nat :=
  (G.needs v).filter (· ∉ placed)

theorem unmet_eq_nil_iff : G.unmet placed v = [] ↔ ∀ d, G.Needs v d → d ∈ placed := by
  simp [unmet, mem_needs_iff]

/-- One that is placed is no longer waited for. -/
theorem length_unmet_snoc (hnew : v ∉ placed) :
    (G.unmet (placed ++ [v]) u).length =
      if v ∈ G.needs u then (G.unmet placed u).length - 1 else (G.unmet placed u).length := by
  have herase : G.unmet (placed ++ [v]) u = (G.unmet placed u).erase v := by
    rw [unmet, unmet, List.Nodup.erase_eq_filter ((nodup_needs G u).filter _), List.filter_filter]
    refine List.filter_congr fun d _ => ?_
    by_cases hdv : d = v <;> simp [hdv]
  have hmem : v ∈ G.unmet placed u ↔ v ∈ G.needs u := by simp [unmet, hnew]
  rw [herase, List.length_erase, if_congr hmem rfl rfl]

/-- What a sort keeps up: what is placed is right, and the numbers and the list of ready nodes stand for what
their names say. -/
structure Counts (G : Digraph) (s : Sorting) : Prop where
  placed : G.Placed s.placed.toList
  missing : ∀ v < G.size, s.missing v = (G.unmet s.placed.toList v).length
  ascending : s.ready.Pairwise (· < ·)
  ready : ∀ v, v ∈ s.ready ↔ G.Ready s.placed.toList v

theorem counts_unsorted (G : Digraph) : G.Counts G.unsorted where
  placed := Placed.nil
  missing v hv := by simp [Sorting.missing, unsorted, unmet, hv]
  ascending := List.pairwise_lt_range.filter _
  ready v := by
    have hnone : (G.needs v).isEmpty = true ↔ ∀ d, ¬ G.Needs v d := by
      simp [List.isEmpty_iff, List.eq_nil_iff_forall_not_mem, mem_needs_iff]
    simp [unsorted, Ready, hnone]

/-- The first of the ready nodes is placed and its dependents are released. -/
theorem Counts.step {ready : List Nat} {s' : Sorting} (h : G.Counts s) (hready : s.ready = v :: ready)
    (hs' : Sorting.Released (G.waiters v) { s with ready, placed := s.placed.push v } s') :
    G.Counts s' := by
  have hascending := h.ascending
  rw [hready, List.pairwise_cons] at hascending
  obtain ⟨hleast, hrest⟩ := hascending
  have hcomes : G.Ready s.placed.toList v := (h.ready v).mp (hready ▸ List.mem_cons_self)
  have hmem : ∀ u, u ∈ ready ↔ G.Ready s.placed.toList u ∧ u ≠ v := by
    intro u
    rw [← h.ready, hready, List.mem_cons]
    have hne : u ∈ ready → u ≠ v := fun hu => Nat.ne_of_gt (hleast u hu)
    tauto
  have hplaced : s'.placed.toList = s.placed.toList ++ [v] := by simp [hs'.placed]
  have hmissing : ∀ u < G.size, s'.missing u = (G.unmet (s.placed.toList ++ [v]) u).length := by
    intro u hu
    have hsame : ({ s with ready, placed := s.placed.push v } : Sorting).missing u = s.missing u := rfl
    rw [hs'.missing, length_unmet_snoc hcomes.2.1, ← h.missing u hu, hsame]
    exact if_congr (mem_waiters_iff.trans (and_iff_right hu)) rfl rfl
  refine ⟨?_, ?_, hs'.ascending hrest fun u hu hmem' => ?_, fun u => ?_⟩
  · rw [hplaced]
    refine h.placed.snoc hcomes fun u hu => ?_
    by_cases huv : u = v
    · exact Nat.le_of_eq huv.symm
    · exact Nat.le_of_lt (hleast u ((hmem u).mpr ⟨hu, huv⟩))
  · rw [hplaced]
    exact hmissing
  · -- what waits for `v` is not ready before `v` is placed
    have hneeds := mem_needs_iff.mp (mem_waiters_iff.mp hu).2
    exact hcomes.2.1 (((hmem u).mp hmem').1.2.2 v hneeds)
  · rw [hs'.ready, hplaced]
    constructor
    · rintro (hu | ⟨hu, hzero⟩)
      · obtain ⟨⟨hlt, hnew, hneeds⟩, hne⟩ := (hmem u).mp hu
        exact ⟨hlt, by simp [hnew, hne], fun d hd => List.mem_append_left _ (hneeds d hd)⟩
      · obtain ⟨hlt, hv⟩ := mem_waiters_iff.mp hu
        have hneeds := mem_needs_iff.mp hv
        refine ⟨hlt, ?_, unmet_eq_nil_iff.mp (List.length_eq_zero_iff.mp ?_)⟩
        · have hnew : u ∉ s.placed.toList := fun hu =>
            hcomes.2.1 (h.placed.mem_of_leads hu (.single hneeds))
          simp [hnew, hneeds.2.symm]
        · rw [← hmissing u hlt, hs'.missing, if_pos hu]
          exact hzero
    · rintro ⟨hlt, hnew, hneeds⟩
      rw [List.mem_append, List.mem_singleton, not_or] at hnew
      by_cases hv : v ∈ G.needs u
      · have hu := mem_waiters_iff.mpr ⟨hlt, hv⟩
        refine .inr ⟨hu, ?_⟩
        have hzero := hmissing u hlt
        rw [unmet_eq_nil_iff.mpr hneeds, hs'.missing, if_pos hu] at hzero
        exact hzero
      · refine .inl ((hmem u).mpr ⟨⟨hlt, hnew.1, fun d hd => ?_⟩, hnew.2⟩)
        obtain hd' | hdv := List.mem_append.mp (hneeds d hd)
        · exact hd'
        · exact absurd (mem_needs_iff.mpr (List.mem_singleton.mp hdv ▸ hd)) hv

/-- Placing keeps the count, and stops early only when no node is ready. -/
theorem Counts.place (h : G.Counts s) (count : Nat) :
    G.Counts (s.place G.dependents count) ∧
      ((s.place G.dependents count).placed.size = s.placed.size + count ∨
        (s.place G.dependents count).ready = []) := by
  induction count generalizing s with
  | zero => exact ⟨h, .inl rfl⟩
  | succ count ih =>
    unfold Sorting.place
    split
    case h_1 hnone => exact ⟨h, .inr hnone⟩
    case h_2 v ready hready =>
      have hv : v < G.size := ((h.ready v).mp (hready ▸ List.mem_cons_self)).1
      rw [getElem?_dependents hv, Option.getD_some]
      have hreleased := Sorting.released_foldl (nodup_waiters G v)
        { s with ready, placed := s.placed.push v }
      obtain ⟨hcounts, hstop⟩ := ih (h.step hready hreleased)
      refine ⟨hcounts, hstop.imp_left fun hlen => ?_⟩
      rw [hlen, hreleased.placed, Array.size_push]
      omega

end Schemata.Digraph
