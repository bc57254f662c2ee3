import Schemata.Proofs.Digraph.Schedules

/-!
# The search for components

The stack of a search falls into sections, one for every node that is being worked on: the node, and on
top of it the nodes that have been left since and belong to its component. An edge that has been followed
from a section leads to a complete component, or to a node on the stack whose number is not below the low
link of the section's node. So if a node is left whose low link is its own number, nothing leads from its
section further down the stack, and the section is a component. Otherwise the node leads back to a lower
section, and its own section joins the next one.
-/

namespace Schemata

open Relation

/-- Each leads to the other. -/
def Mutual {α : Type} (r : α → α → Prop) (a b : α) : Prop :=
  ReflTransGen r a b ∧ ReflTransGen r b a

namespace Mutual

variable {α : Type} {r : α → α → Prop} {a b c : α}

theorem refl (a : α) : Mutual r a a :=
  ⟨.refl, .refl⟩

theorem symm (h : Mutual r a b) : Mutual r b a :=
  ⟨h.2, h.1⟩

theorem trans (h : Mutual r a b) (h' : Mutual r b c) : Mutual r a c :=
  ⟨h.1.trans h'.1, h'.2.trans h.2⟩

end Mutual

namespace Digraph

-- ---------------------------------------------------------------------------
-- Tables and the stack
-- ---------------------------------------------------------------------------

namespace Search

variable {n v : Nat}

theorem lt_of_indexOf_ne {s : Search n} (h : s.indexOf v ≠ 0) : v < n := by
  by_contra hv
  exact h (by simp [indexOf, hv])

theorem lowOf_visit (s : Search n) (edges : List Int) (hv : v < n) (u : Nat) :
    (s.visit v edges).lowOf u = if u = v then s.count + 1 else s.lowOf u := by
  simp only [lowOf, visit, Vector.getElem?_setIfInBounds, hv, if_true, eq_comm (a := u)]
  split <;> rfl

theorem stacked_visit (s : Search n) (edges : List Int) (hv : v < n) (u : Nat) :
    (s.visit v edges).stacked u = true ↔ u = v ∨ s.stacked u = true := by
  simp only [stacked, visit, Vector.getElem?_setIfInBounds, hv, if_true, eq_comm (a := u)]
  split <;> simp_all

theorem lowOf_lower (s : Search n) (v bound u : Nat) :
    (s.lower v bound).lowOf u = if u = v then min (s.lowOf v) bound else s.lowOf u := by
  simp only [lowOf, lower, Vector.getElem?_setIfInBounds, eq_comm (a := u)]
  by_cases hv : v < n <;> split <;> simp_all

/-- A bound that is not below the low link changes nothing. -/
theorem lower_of_le {s : Search n} {bound : Nat} (h : s.lowOf v ≤ bound) : s.lower v bound = s := by
  have hlow : s.low.setIfInBounds v (s.lowOf v) = s.low := by
    ext i hi
    rw [Vector.getElem_setIfInBounds]
    split
    case isTrue hvi =>
      subst hvi
      simp [lowOf, hi]
    case isFalse => rfl
  rw [lower, Nat.min_eq_left h, hlow]

theorem stacked_close (s : Search n) (v u : Nat) :
    (s.close v).stacked u = true ↔ s.stacked u = true ∧ u ∉ (unstack v s.stack).1 := by
  have hrun : ∀ (taken : List Nat) (onStack : Vector Bool n),
      (taken.foldl (fun onStack w => onStack.setIfInBounds w false) onStack)[u]?.getD false = true ↔
        onStack[u]?.getD false = true ∧ u ∉ taken := by
    intro taken
    induction taken with
    | nil => simp
    | cons w taken ih =>
      intro onStack
      rw [List.foldl_cons, ih, Vector.getElem?_setIfInBounds, List.mem_cons, not_or, eq_comm (a := u)]
      by_cases hw : w < n <;> split <;> simp_all
  exact hrun _ _

end Search

theorem unstack_append {above below : List Nat} {v : Nat} (h : v ∉ above) :
    unstack v (above ++ v :: below) = (above ++ [v], below) := by
  induction above with
  | nil => simp [unstack]
  | cons w above ih =>
    obtain ⟨hw, h⟩ := not_or.mp (mt List.mem_cons.mpr h)
    simp [unstack, ih h, Ne.symm hw]

theorem perm_foldr_lineUp (nodes : List Nat) : (nodes.foldr lineUp []).Perm nodes := by
  induction nodes with
  | nil => exact .nil
  | cons v nodes ih => exact (perm_lineUp v _).trans (ih.cons v)

theorem pairwise_foldr_lineUp {nodes : List Nat} (h : nodes.Nodup) :
    (nodes.foldr lineUp []).Pairwise (· < ·) := by
  induction nodes with
  | nil => exact .nil
  | cons v nodes ih =>
    obtain ⟨hv, h⟩ := List.nodup_cons.mp h
    exact pairwise_lineUp (ih h) (mt (perm_foldr_lineUp nodes).mem_iff.mp hv)

-- ---------------------------------------------------------------------------
-- Complete components
-- ---------------------------------------------------------------------------

variable {G : Digraph} {u v w x y : Nat} {c : List Nat} {out : List (List Nat)}

/-- Components, each ascending, none of which leads anywhere but to itself and to earlier ones. -/
inductive Settled (G : Digraph) : List (List Nat) → Prop
  | nil : Settled G []
  | snoc {out : List (List Nat)} {c : List Nat} (earlier : Settled G out) (inhabited : c ≠ [])
      (ascending : c.Pairwise (· < ·)) (joined : ∀ v ∈ c, ∀ w ∈ c, Mutual G.Edge v w)
      (closed : ∀ v ∈ c, ∀ w ∈ G.next v, w ∈ out.flatten ∨ w ∈ c) : Settled G (out ++ [c])

theorem mem_flatten_snoc_iff : v ∈ (out ++ [c]).flatten ↔ v ∈ out.flatten ∨ v ∈ c := by
  simp

namespace Settled

theorem closed_under_edges (h : G.Settled out) (hv : v ∈ out.flatten) (hw : G.Edge v w) : w ∈ out.flatten := by
  induction h with
  | nil => exact absurd hv List.not_mem_nil
  | snoc _ _ _ _ closed ih =>
    rw [mem_flatten_snoc_iff] at hv ⊢
    obtain hv | hv := hv
    · exact .inl (ih hv)
    · exact closed v hv w hw

theorem mem_of_leads (h : G.Settled out) (hv : v ∈ out.flatten) (hwalk : ReflTransGen G.Edge v w) :
    w ∈ out.flatten := by
  induction hwalk with
  | refl => exact hv
  | tail _ hedge ih => exact h.closed_under_edges ih hedge

end Settled

-- ---------------------------------------------------------------------------
-- Sections of the stack
-- ---------------------------------------------------------------------------

section Sections

variable {s s' : Search G.size} {edge : Int} {edges : List Int} {f p : Frame} {work : List Frame}
  {stack above below : List Nat} {low : Nat}

/-- A node that is in a complete component, or on the stack with a number that is not below `low`. -/
def Covers (s : Search G.size) (low y : Nat) : Prop :=
  y ∈ s.out.flatten ∨ y ∈ s.stack ∧ low ≤ s.indexOf y

/-- The sections of a stack, the latest first. -/
inductive Sections (s : Search G.size) : List Frame → List Nat → Prop
  | nil : Sections s [] []
  | cons {f : Frame} {work : List Frame} {above below : List Nat} (rest : Sections s work below)
      (entry : ∀ p ∈ work.head?, G.Edge p.node f.node) (edges : f.edges ⊆ G.succ f.node)
      (joined : ∀ w ∈ above, Mutual G.Edge f.node w)
      (bound : s.lowOf f.node ≤ s.indexOf f.node)
      (link : ∃ x ∈ f.node :: below, s.indexOf x = s.lowOf f.node ∧ ReflTransGen G.Edge f.node x)
      (followed : ∀ w, w = f.node ∨ w ∈ above → ∀ y ∈ G.next w,
        Covers s (s.lowOf f.node) y ∨ w = f.node ∧ y ∈ f.edges.filterMap G.node?) :
      Sections s (f :: work) (above ++ f.node :: below)

/-- What a step keeps of nodes that have been visited. -/
structure Keeps (s s' : Search G.size) : Prop where
  index : ∀ v ∈ s.stack, s'.indexOf v = s.indexOf v
  stack : ∀ v ∈ s.stack, v ∈ s'.stack ∨ v ∈ s'.out.flatten
  out : ∀ v ∈ s.out.flatten, v ∈ s'.out.flatten

theorem Keeps.covers (h : Keeps s s') (hy : Covers s low y) : Covers s' low y := by
  obtain hy | ⟨hy, hlow⟩ := hy
  · exact .inl (h.out y hy)
  · obtain hy' | hy' := h.stack y hy
    · exact .inr ⟨hy', (h.index y hy).symm ▸ hlow⟩
    · exact .inl hy'

theorem Covers.mono {low' : Nat} (h : Covers s low y) (hle : low' ≤ low) : Covers s low' y :=
  h.imp_right fun ⟨hy, hlow⟩ => ⟨hy, hle.trans hlow⟩

namespace Sections

theorem mem_stack (h : Sections s work stack) (hf : f ∈ work) : f.node ∈ stack := by
  induction h with
  | nil => exact absurd hf List.not_mem_nil
  | cons _ _ _ _ _ _ _ ih =>
    obtain rfl | hf := List.mem_cons.mp hf
    · exact List.mem_append_right _ List.mem_cons_self
    · exact List.mem_append_right _ (List.mem_cons_of_mem _ (ih hf))

theorem bound (h : Sections s work stack) (hf : f ∈ work) : s.lowOf f.node ≤ s.indexOf f.node := by
  induction h with
  | nil => exact absurd hf List.not_mem_nil
  | cons _ _ _ _ bound _ _ ih =>
    obtain rfl | hf := List.mem_cons.mp hf
    · exact bound
    · exact ih hf

/-- The node that a search started from leads to none below it. -/
theorem lowOf_root (h : Sections s [f] stack) : s.lowOf f.node = s.indexOf f.node := by
  cases h with
  | cons rest _ _ _ _ link _ =>
    cases rest with
    | nil =>
      obtain ⟨x, hx, hlow, -⟩ := link
      rw [← hlow, List.mem_singleton.mp hx]

theorem edges_head (h : Sections s (f :: work) stack) : f.edges ⊆ G.succ f.node := by
  cases h with
  | cons _ _ edges _ _ _ _ => exact edges

/-- The numbers fall along the path. -/
theorem indexOf_lt (h : Sections s (f :: work) stack)
    (hdesc : stack.Pairwise fun v w => s.indexOf w < s.indexOf v) (hp : p ∈ work) :
    s.indexOf p.node < s.indexOf f.node := by
  cases h with
  | cons rest _ _ _ _ _ _ =>
    obtain ⟨-, hcons, -⟩ := List.pairwise_append.mp hdesc
    exact (List.pairwise_cons.mp hcons).1 _ (rest.mem_stack hp)

/-- All of a stack leads to the node on top of the path. -/
theorem leads (h : Sections s (f :: work) stack) (hx : x ∈ stack) : ReflTransGen G.Edge x f.node := by
  generalize hpath : f :: work = path at h
  induction h generalizing f work with
  | nil => cases hpath
  | @cons _ _ above below rest entry _ joined _ _ _ ih =>
    cases hpath
    obtain hx | hx := List.mem_append.mp hx
    · exact (joined x hx).2
    · obtain rfl | hx := List.mem_cons.mp hx
      · exact .refl
      · cases rest with
        | nil => exact absurd hx List.not_mem_nil
        | cons => exact (ih hx rfl).tail (entry _ rfl)

theorem keep (h : Sections s work stack) (hkeeps : Keeps s s') (hsub : stack ⊆ s.stack)
    (hlow : ∀ f ∈ work, s'.lowOf f.node = s.lowOf f.node) : Sections s' work stack := by
  induction h with
  | nil => exact .nil
  | @cons f work above below _ entry edges joined bound link followed ih =>
    obtain ⟨-, hbelow⟩ := List.append_subset.mp hsub
    have hown := hlow f List.mem_cons_self
    have hindex : ∀ x ∈ f.node :: below, s'.indexOf x = s.indexOf x := fun x hx =>
      hkeeps.index x (hbelow hx)
    refine .cons (ih (List.cons_subset.mp hbelow).2 fun p hp => hlow p (List.mem_cons_of_mem _ hp))
      entry edges joined ?_ ?_ fun w hw y hy => ?_
    · rw [hown, hindex _ List.mem_cons_self]
      exact bound
    · obtain ⟨x, hx, hxlow, hwalk⟩ := link
      exact ⟨x, hx, by rw [hindex x hx, hown, hxlow], hwalk⟩
    · rw [hown]
      exact (followed w hw y hy).imp_left hkeeps.covers

theorem setWork (h : Sections s work stack) (work' : List Frame) :
    Sections { s with work := work' } work stack := by
  induction h with
  | nil => exact .nil
  | cons _ entry edges joined bound link followed ih => exact .cons ih entry edges joined bound link followed

/-- An edge is off the list once it leads to a node that the section covers. -/
theorem follow (h : Sections s (⟨v, edge :: edges⟩ :: work) stack)
    (hedge : ∀ y, G.node? edge = some y → Covers s (s.lowOf v) y) :
    Sections s (⟨v, edges⟩ :: work) stack := by
  cases h with
  | cons rest entry hedges joined bound link followed =>
    refine .cons rest entry (List.cons_subset.mp hedges).2 joined bound link fun w hw y hy => ?_
    obtain hy | ⟨rfl, hy⟩ := followed w hw y hy
    · exact .inl hy
    · obtain ⟨i, hi, hiy⟩ := List.mem_filterMap.mp hy
      obtain rfl | hi := List.mem_cons.mp hi
      · exact .inl (hedge y hiy)
      · exact .inr ⟨rfl, List.mem_filterMap.mpr ⟨i, hi, hiy⟩⟩

/-- A node that has just been visited is a section of its own. -/
theorem visit (h : Sections s work stack) (hentry : ∀ p ∈ work.head?, G.Edge p.node v)
    (hlow : s.lowOf v = s.indexOf v) : Sections s (⟨v, G.succ v⟩ :: work) (v :: stack) := by
  change Sections s _ ([] ++ v :: stack)
  refine .cons h hentry (List.Subset.refl _) (fun w hw => absurd hw List.not_mem_nil) hlow.le
    ⟨v, List.mem_cons_self, hlow.symm, .refl⟩ fun w hw y hy => ?_
  obtain rfl | hw := hw
  · exact .inr ⟨rfl, hy⟩
  · exact absurd hw List.not_mem_nil

theorem keeps_lower (s : Search G.size) (v bound : Nat) : Keeps s (s.lower v bound) :=
  ⟨fun _ _ => rfl, fun _ => .inl, fun _ => id⟩

/-- The node on top of the path leads to a node with the number `bound` on the stack. -/
theorem lower (h : Sections s (f :: work) stack) (hsub : stack ⊆ s.stack)
    (hdesc : stack.Pairwise fun v w => s.indexOf w < s.indexOf v) (hx : x ∈ stack)
    (hwalk : ReflTransGen G.Edge f.node x) :
    Sections (s.lower f.node (s.indexOf x)) (f :: work) stack := by
  have hpath := fun p (hp : p ∈ work) => (h.indexOf_lt hdesc hp).ne
  cases h with
  | @cons _ _ above below rest entry edges joined bound link followed =>
    obtain ⟨-, -, habove⟩ := List.pairwise_append.mp hdesc
    obtain ⟨-, hsub⟩ := List.append_subset.mp hsub
    have hlow := s.lowOf_lower f.node (s.indexOf x) f.node
    rw [if_pos rfl] at hlow
    refine .cons (rest.keep (keeps_lower s _ _) (List.cons_subset.mp hsub).2 fun p hp => ?_) entry edges
      joined ?_ ?_ fun w hw y hy => ?_
    · rw [s.lowOf_lower, if_neg fun heq => hpath p hp (by rw [heq])]
    · rw [hlow]
      exact (Nat.min_le_left _ _).trans bound
    · rw [hlow]
      obtain hle | hlt := le_or_gt (s.lowOf f.node) (s.indexOf x)
      · rw [Nat.min_eq_left hle]
        exact link
      · rw [Nat.min_eq_right hlt.le]
        refine ⟨x, ?_, rfl, hwalk⟩
        obtain hmem | hmem := List.mem_append.mp hx
        · have hgt := habove x hmem _ List.mem_cons_self
          omega
        · exact hmem
    · rw [hlow]
      refine (followed w hw y hy).imp_left fun hcovers => ?_
      exact (keeps_lower s _ _).covers (hcovers.mono (Nat.min_le_left _ _))

/-- A node that leads further back joins the section of the node before it. -/
theorem join (h : Sections s (⟨v, []⟩ :: p :: work) stack) (hsub : stack ⊆ s.stack)
    (hdesc : stack.Pairwise fun v w => s.indexOf w < s.indexOf v) (hlow : s.lowOf v ≠ s.indexOf v) :
    Sections (s.lower p.node (s.lowOf v)) (p :: work) stack := by
  cases h with
  | @cons _ _ aboveV belowV restV entryV _ joinedV _ linkV followedV =>
    obtain ⟨x, hx, hxlow, hvx⟩ := linkV
    have hxstack : x ∈ belowV := by
      obtain rfl | hx := List.mem_cons.mp hx
      · exact absurd hxlow.symm hlow
      · exact hx
    have hpv : G.Edge p.node v := entryV p rfl
    have hmutual : Mutual G.Edge p.node v := ⟨.single hpv, hvx.trans (restV.leads hxstack)⟩
    obtain ⟨-, hcons, -⟩ := List.pairwise_append.mp hdesc
    obtain ⟨-, hsubV⟩ := List.append_subset.mp hsub
    have hlowered := restV.lower (List.cons_subset.mp hsubV).2 (List.pairwise_cons.mp hcons).2 hxstack
      (hmutual.1.trans hvx)
    have hle : (s.lower p.node (s.lowOf v)).lowOf p.node ≤ s.lowOf v := by
      rw [s.lowOf_lower, if_pos rfl]
      exact Nat.min_le_right _ _
    rw [hxlow] at hlowered
    cases hlowered with
    | @cons _ _ aboveP below rest entry edges joined bound link followed =>
      rw [← List.cons_append, ← List.append_assoc]
      refine .cons rest entry edges (fun w hw => ?_) bound link fun w hw y hy => ?_
      · obtain hw | hw := List.mem_append.mp hw
        · exact hmutual.trans (joinedV w hw)
        · obtain rfl | hw := List.mem_cons.mp hw
          · exact hmutual
          · exact joined w hw
      · have hsections : (w = v ∨ w ∈ aboveV) ∨ w = p.node ∨ w ∈ aboveP := by
          simp only [List.mem_append, List.mem_cons] at hw
          tauto
        obtain hw | hw := hsections
        · obtain hcovers | ⟨-, hpending⟩ := followedV w hw y hy
          · exact .inl ((keeps_lower s _ _).covers (hcovers.mono hle))
          · exact absurd hpending List.not_mem_nil
        · exact followed w hw y hy

/-- The section of a node that does not lead further back leads nowhere but to itself and to complete
components. -/
theorem closed (h : Sections s (⟨v, []⟩ :: work) s.stack)
    (hdesc : s.stack.Pairwise fun v w => s.indexOf w < s.indexOf v) (hlow : s.lowOf v = s.indexOf v) :
    ∃ above below, s.stack = above ++ v :: below ∧ Sections s work below ∧
      (∀ w ∈ above, Mutual G.Edge v w) ∧
      ∀ w ∈ above ++ [v], ∀ y ∈ G.next w, y ∈ s.out.flatten ∨ y ∈ above ++ [v] := by
  generalize hstack : s.stack = stack at h
  cases h with
  | @cons _ _ above below rest _ _ joined _ _ followed =>
    have hsection : ∀ u, u ∈ above ++ [v] ↔ u = v ∨ u ∈ above := fun u => by simp [or_comm]
    refine ⟨above, below, rfl, rest, joined, fun w hw y hy => ?_⟩
    rw [hsection] at hw ⊢
    obtain (hy | ⟨hy, hge⟩) | ⟨-, hpending⟩ := followed w hw y hy
    · exact .inl hy
    · have hge : s.indexOf v ≤ s.indexOf y := hlow ▸ hge
      rw [hstack] at hy hdesc
      obtain hy | hy := List.mem_append.mp hy
      · exact .inr (.inr hy)
      · obtain rfl | hy := List.mem_cons.mp hy
        · exact .inr (.inl rfl)
        · have hlt := (List.pairwise_cons.mp (List.pairwise_append.mp hdesc).2.1).1 y hy
          exact absurd hlt hge.not_gt
    · exact absurd hpending List.not_mem_nil

end Sections

end Sections

-- ---------------------------------------------------------------------------
-- Steps
-- ---------------------------------------------------------------------------

variable {s s' : Search G.size} {edge : Int} {edges : List Int} {work : List Frame}

/-- The stack and the complete components share out the visited nodes, and the numbers on the stack fall. -/
structure Numbered (G : Digraph) (s : Search G.size) : Prop where
  visited : ∀ v, s.indexOf v ≠ 0 ↔ v ∈ s.stack ++ s.out.flatten
  stacked : ∀ v, s.stacked v = true ↔ v ∈ s.stack
  nodup : (s.stack ++ s.out.flatten).Nodup
  counted : ∀ v, s.indexOf v ≤ s.count
  descending : s.stack.Pairwise fun v w => s.indexOf w < s.indexOf v
  settled : G.Settled s.out

/-- What holds while a search is under way. -/
structure Underway (G : Digraph) (s : Search G.size) : Prop extends G.Numbered s where
  sections : Sections s s.work s.stack

namespace Numbered

theorem setWork (h : G.Numbered s) (work : List Frame) : G.Numbered { s with work } :=
  ⟨h.visited, h.stacked, h.nodup, h.counted, h.descending, h.settled⟩

theorem ne_of_new (h : G.Numbered s) (hnew : s.indexOf v = 0) (hu : u ∈ s.stack ++ s.out.flatten) : u ≠ v := by
  rintro rfl
  exact (h.visited u).mpr hu hnew

theorem keeps_visit (h : G.Numbered s) (hv : v < G.size) (hnew : s.indexOf v = 0) (edges : List Int) :
    Keeps s (s.visit v edges) := by
  refine ⟨fun u hu => ?_, fun u hu => .inl (List.mem_cons_of_mem _ hu), fun u => id⟩
  rw [s.indexOf_visit edges hv, if_neg (h.ne_of_new hnew (List.mem_append_left _ hu))]

theorem visit (h : G.Numbered s) (hv : v < G.size) (hnew : s.indexOf v = 0) (edges : List Int) :
    G.Numbered (s.visit v edges) where
  visited u := by
    rw [s.indexOf_visit edges hv]
    change _ ↔ u ∈ v :: (s.stack ++ s.out.flatten)
    rw [List.mem_cons, ← h.visited]
    split <;> simp_all
  stacked u := by
    rw [s.stacked_visit edges hv, h.stacked]
    exact List.mem_cons.symm
  nodup := List.nodup_cons.mpr ⟨fun hmem => h.ne_of_new hnew hmem rfl, h.nodup⟩
  counted u := by
    rw [s.indexOf_visit edges hv]
    have hu := h.counted u
    change _ ≤ s.count + 1
    split <;> omega
  descending := by
    have hkeeps := (h.keeps_visit hv hnew edges).index
    refine List.pairwise_cons.mpr ⟨fun u hu => ?_, h.descending.imp_of_mem fun {a b} ha hb hlt => ?_⟩
    · rw [hkeeps u hu, s.indexOf_visit edges hv, if_pos rfl]
      exact Nat.lt_succ_of_le (h.counted u)
    · rw [hkeeps a ha, hkeeps b hb]
      exact hlt
  settled := h.settled

/-- Visiting a node that the node on top of the path has an edge to. -/
theorem underway_visit (h : G.Numbered s) (hv : v < G.size) (hnew : s.indexOf v = 0)
    (hsections : Sections (s.visit v (G.succ v)) s.work s.stack)
    (hentry : ∀ p ∈ s.work.head?, G.Edge p.node v) : G.Underway (s.visit v (G.succ v)) where
  toNumbered := h.visit hv hnew _
  sections := hsections.visit hentry (by simp [s.indexOf_visit _ hv, s.lowOf_visit _ hv])

theorem lower (h : G.Numbered s) (v bound : Nat) : G.Numbered (s.lower v bound) :=
  ⟨h.visited, h.stacked, h.nodup, h.counted, h.descending, h.settled⟩

/-- An edge leads to no node, to a new one, to one on the stack or to a complete component. -/
theorem follow (h : G.Numbered s) (hwork : s.work = ⟨v, edges⟩ :: work)
    (hsections : Sections s (⟨v, edge :: edges⟩ :: work) s.stack) : G.Underway (G.follow s v edge) := by
  unfold Digraph.follow
  split
  case h_1 hnone =>
    refine ⟨h, hwork ▸ hsections.follow fun y hy => ?_⟩
    rw [hnone] at hy
    cases hy
  case h_2 y hy =>
    have hlt := lt_size_of_node? hy
    have hedge : G.Edge v y :=
      List.mem_filterMap.mpr ⟨edge, hsections.edges_head List.mem_cons_self, hy⟩
    split
    case isTrue hnew =>
      have hlow : ∀ f ∈ ⟨v, edge :: edges⟩ :: work, (s.visit y (G.succ y)).lowOf f.node = s.lowOf f.node := by
        intro f hf
        have hf : f.node ≠ y := h.ne_of_new hnew (List.mem_append_left _ (hsections.mem_stack hf))
        rw [s.lowOf_visit _ hlt, if_neg hf]
      have hkept := hsections.keep (h.keeps_visit hlt hnew _) (List.Subset.refl _) hlow
      refine h.underway_visit hlt hnew (hwork ▸ hkept.follow fun y' hy' => ?_) ?_
      · obtain rfl := Option.some.inj (hy.symm.trans hy')
        refine .inr ⟨List.mem_cons_self, ?_⟩
        rw [hlow _ List.mem_cons_self, s.indexOf_visit _ hlt, if_pos rfl]
        exact ((hsections.bound List.mem_cons_self).trans (h.counted v)).trans (Nat.le_succ _)
      · rw [hwork]
        rintro p ⟨⟩
        exact hedge
    case isFalse hold =>
      split
      case isTrue hstacked =>
        have hmem := (h.stacked y).mp hstacked
        have hlowered := hsections.lower (List.Subset.refl _) h.descending hmem (.single hedge)
        refine ⟨h.lower v _, hwork ▸ hlowered.follow fun y' hy' => ?_⟩
        obtain rfl := Option.some.inj (hy.symm.trans hy')
        refine .inr ⟨hmem, ?_⟩
        rw [s.lowOf_lower, if_pos rfl]
        exact Nat.min_le_right _ _
      case isFalse hstacked =>
        refine ⟨h, hwork ▸ hsections.follow fun y' hy' => ?_⟩
        obtain rfl := Option.some.inj (hy.symm.trans hy')
        obtain hmem | hmem := List.mem_append.mp ((h.visited y).mp hold)
        · exact absurd ((h.stacked y).mpr hmem) hstacked
        · exact .inl hmem

/-- A node whose low link is its own number is left together with its component. -/
theorem close (h : G.Numbered s) (hsections : Sections s (⟨v, []⟩ :: s.work) s.stack)
    (hlow : s.lowOf v = s.indexOf v) : G.Underway (s.close v) := by
  obtain ⟨above, below, hstack, hrest, hjoined, hclosed⟩ := hsections.closed h.descending hlow
  have hnodup : (above ++ v :: below).Nodup := hstack ▸ (List.nodup_append.mp h.nodup).1
  have hnew : v ∉ above := fun hv => (List.nodup_append.mp hnodup).2.2 v hv v List.mem_cons_self rfl
  have htaken : unstack v s.stack = (above ++ [v], below) := hstack ▸ unstack_append hnew
  have hsplit : s.stack = (above ++ [v]) ++ below := by rw [hstack, List.append_cons]
  have hpieces := List.nodup_append.mp (hsplit ▸ (List.nodup_append.mp h.nodup).1)
  have hstack' : (s.close v).stack = below := by simp [Search.close, htaken]
  have hsort := perm_foldr_lineUp (above ++ [v])
  generalize hc : (above ++ [v]).foldr lineUp [] = c at hsort
  have hout : (s.close v).out = s.out ++ [c] := by simp [Search.close, htaken, hc]
  have hperm : (s.stack ++ s.out.flatten).Perm ((s.close v).stack ++ (s.close v).out.flatten) := by
    rw [hstack', hout, hsplit, List.flatten_append, List.flatten_singleton, ← List.append_assoc below,
      List.append_assoc]
    exact List.perm_append_comm.trans (hsort.symm.append_left _)
  have hmutual : ∀ w ∈ above ++ [v], Mutual G.Edge v w := by
    intro w hw
    obtain hw | hw := List.mem_append.mp hw
    · exact hjoined w hw
    · obtain rfl := List.mem_singleton.mp hw
      exact .refl w
  refine ⟨⟨fun u => ?_, fun u => ?_, hperm.nodup h.nodup, h.counted, ?_, ?_⟩, ?_⟩
  · exact (h.visited u).trans hperm.mem_iff
  · rw [s.stacked_close, h.stacked, htaken, hstack', hsplit, List.mem_append]
    exact ⟨fun hu => hu.1.resolve_left hu.2, fun hu => ⟨.inr hu, fun hu' => hpieces.2.2 u hu' u hu rfl⟩⟩
  · rw [hstack']
    exact h.descending.sublist (hsplit ▸ List.sublist_append_right _ _)
  · rw [hout]
    refine .snoc h.settled ?_ (hc ▸ pairwise_foldr_lineUp hpieces.1) (fun w hw w' hw' => ?_) fun w hw y hy => ?_
    · exact List.ne_nil_of_mem (hsort.mem_iff.mpr (List.mem_append_right _ List.mem_cons_self))
    · exact (hmutual w (hsort.mem_iff.mp hw)).symm.trans (hmutual w' (hsort.mem_iff.mp hw'))
    · rw [hsort.mem_iff] at hw ⊢
      exact hclosed w hw y hy
  · rw [hstack']
    refine hrest.keep ⟨fun _ _ => rfl, fun u hu => ?_, fun u hu => ?_⟩ ?_ fun _ _ => rfl
    · exact List.mem_append.mp (hperm.mem_iff.mp (List.mem_append_left _ hu))
    · rw [hout, mem_flatten_snoc_iff]
      exact .inl hu
    · exact hsplit ▸ List.subset_append_right _ _

/-- A node is left with its component, or it joins the section of the node before it. -/
theorem leave (h : G.Numbered s) (hsections : Sections s (⟨v, []⟩ :: s.work) s.stack) :
    G.Underway (s.leave v) := by
  unfold Search.leave
  split
  case h_1 hwork =>
    have hlow : s.lowOf v = s.indexOf v := by
      rw [hwork] at hsections
      exact hsections.lowOf_root
    dsimp only
    rw [if_pos hlow]
    exact h.close hsections hlow
  case h_2 p work hwork =>
    have hlt : s.indexOf p.node < s.indexOf v :=
      hsections.indexOf_lt h.descending (hwork ▸ List.mem_cons_self)
    have hother : (s.lower p.node (s.lowOf v)).lowOf v = s.lowOf v := by
      rw [s.lowOf_lower, if_neg fun heq => hlt.ne (by rw [heq])]
    dsimp only
    rw [hother]
    split
    case isTrue hlow =>
      have hsame : s.lower p.node (s.lowOf v) = s := by
        refine Search.lower_of_le (Nat.le_trans (hsections.bound ?_) (hlow ▸ hlt.le))
        exact List.mem_cons_of_mem _ (hwork ▸ List.mem_cons_self)
      rw [hsame]
      exact h.close hsections hlow
    case isFalse hlow =>
      rw [hwork] at hsections
      refine ⟨h.lower _ _, ?_⟩
      exact hwork ▸ hsections.join (List.Subset.refl _) h.descending hlow

end Numbered

/-- What one step of a search keeps. -/
theorem Underway.step (h : G.Underway s) (hs : G.step s = some s') : G.Underway s' := by
  have hsections := h.sections
  unfold Digraph.step at hs
  split at hs
  case h_1 => cases hs
  case h_2 v edge edges work hwork =>
    obtain rfl := Option.some.inj hs
    rw [hwork] at hsections
    exact (h.setWork (⟨v, edges⟩ :: work)).follow rfl (hsections.setWork _)
  case h_3 v work hwork =>
    obtain rfl := Option.some.inj hs
    rw [hwork] at hsections
    exact (h.setWork work).leave (hsections.setWork _)

/-- What a search keeps, which ends when it has left all nodes. -/
theorem Underway.run (h : G.Underway s) : G.Underway (G.run s) ∧ (G.run s).work = [] := by
  fun_induction Digraph.run G s with
  | case1 s hs =>
    refine ⟨h, ?_⟩
    unfold Digraph.step at hs
    split at hs
    case h_1 hwork => exact hwork
    all_goals cases hs
  | case2 s s' hs ih => exact ih (h.step hs)

-- ---------------------------------------------------------------------------
-- The whole search
-- ---------------------------------------------------------------------------

/-- A node that has been visited stays so. -/
theorem indexOf_step_ne (hs : G.step s = some s') (hu : s.indexOf u ≠ 0) : s'.indexOf u ≠ 0 := by
  unfold step at hs
  split at hs
  case h_1 => cases hs
  case h_2 v edge edges work hwork =>
    obtain rfl := Option.some.inj hs
    unfold follow
    split
    case h_1 => exact hu
    case h_2 w hw =>
      split
      case isTrue =>
        rw [Search.indexOf_visit _ _ (lt_size_of_node? hw)]
        split
        · exact Nat.succ_ne_zero _
        · exact hu
      case isFalse => split <;> exact hu
  case h_3 v work hwork =>
    obtain rfl := Option.some.inj hs
    rw [Search.indexOf, Search.index_leave]
    exact hu

theorem indexOf_run_ne (hu : s.indexOf u ≠ 0) : (G.run s).indexOf u ≠ 0 := by
  fun_induction Digraph.run G s with
  | case1 => exact hu
  | case2 s s' hs ih => exact ih (indexOf_step_ne hs hu)

/-- What holds between the searches from two roots. -/
structure Rested (G : Digraph) (s : Search G.size) : Prop extends G.Underway s where
  idle : s.work = []

theorem Rested.stack (h : G.Rested s) : s.stack = [] := by
  have hsections := h.sections
  rw [h.idle] at hsections
  generalize s.stack = stack at hsections
  cases hsections
  rfl

theorem indexOf_start (n v : Nat) : ({} : Search n).indexOf v = 0 := by
  simp only [Search.indexOf, Vector.getElem?_replicate]
  split <;> rfl

theorem rested_start (G : Digraph) : G.Rested {} where
  visited v := by simp [indexOf_start]
  stacked v := by
    simp only [Search.stacked, Vector.getElem?_replicate]
    split <;> simp
  nodup := .nil
  counted v := (indexOf_start _ v).le
  descending := .nil
  settled := .nil
  sections := .nil
  idle := rfl

theorem Rested.searchFrom (h : G.Rested s) (hv : v < G.size) :
    G.Rested (G.searchFrom s v) ∧ (G.searchFrom s v).indexOf v ≠ 0 := by
  unfold Digraph.searchFrom
  split
  case isTrue hnew =>
    have hvisited := h.underway_visit hv hnew (h.idle ▸ h.stack ▸ .nil) (by simp [h.idle])
    obtain ⟨hrun, hidle⟩ := hvisited.run
    refine ⟨⟨hrun, hidle⟩, indexOf_run_ne ?_⟩
    rw [s.indexOf_visit _ hv, if_pos rfl]
    exact Nat.succ_ne_zero _
  case isFalse hold => exact ⟨h, hold⟩

theorem indexOf_searchFrom_ne (hv : v < G.size) (hu : s.indexOf u ≠ 0) : (G.searchFrom s v).indexOf u ≠ 0 := by
  unfold searchFrom
  split
  case isTrue =>
    refine indexOf_run_ne ?_
    rw [s.indexOf_visit _ hv]
    split
    · exact Nat.succ_ne_zero _
    · exact hu
  case isFalse => exact hu

/-- Searches from a list of roots visit all of them. -/
theorem Rested.foldl (h : G.Rested s) {roots : List Nat} (hroots : ∀ v ∈ roots, v < G.size) :
    G.Rested (roots.foldl G.searchFrom s) ∧
      ∀ v, v ∈ roots ∨ s.indexOf v ≠ 0 → (roots.foldl G.searchFrom s).indexOf v ≠ 0 := by
  induction roots generalizing s with
  | nil => exact ⟨h, fun v hv => hv.resolve_left List.not_mem_nil⟩
  | cons root roots ih =>
    obtain ⟨hroot, hroots⟩ := List.forall_mem_cons.mp hroots
    obtain ⟨hnext, hvisited⟩ := h.searchFrom hroot
    obtain ⟨hlast, hall⟩ := ih hnext hroots
    refine ⟨hlast, fun v hv => hall v ?_⟩
    rw [List.mem_cons, or_assoc] at hv
    obtain rfl | hv | hv := hv
    · exact .inr hvisited
    · exact .inl hv
    · exact .inr (indexOf_searchFrom_ne hroot hv)

theorem rested_components (G : Digraph) : G.Rested ((List.range G.size).foldl G.searchFrom {}) ∧
    ∀ v < G.size, ((List.range G.size).foldl G.searchFrom {}).indexOf v ≠ 0 := by
  have hroots : ∀ v ∈ List.range G.size, v < G.size := fun v => List.mem_range.mp
  obtain ⟨hrested, hvisited⟩ := (rested_start G).foldl hroots
  exact ⟨hrested, fun v hv => hvisited v (.inl (List.mem_range.mpr hv))⟩

theorem settled_components (G : Digraph) : G.Settled G.components :=
  (rested_components G).1.settled

theorem components_partition (G : Digraph) : G.components.flatten.Perm (List.range G.size) := by
  obtain ⟨hrested, hvisited⟩ := rested_components G
  have hnodup := hrested.nodup
  have hmem := hrested.visited
  rw [hrested.stack, List.nil_append] at hnodup hmem
  refine (List.perm_ext_iff_of_nodup hnodup List.nodup_range).mpr fun v => ?_
  rw [← hmem, List.mem_range]
  exact ⟨Search.lt_of_indexOf_ne, hvisited v⟩

end Digraph

end Schemata
