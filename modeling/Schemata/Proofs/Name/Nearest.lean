import Mathlib.Data.List.Infix
import Schemata.Name.Nearest
import Schemata.Proofs.Text.Edits

/-!
# Nearest names

The table of distances is filled row by row. A row belongs to a beginning of the second text and holds
its edit distance from every beginning of the first one; the last entry of the last row is therefore the
edit distance of the texts, and the texts may be exchanged before the table is set up.

The candidate that is offered for a name is the earliest of the nearest ones, and nothing is offered
exactly if all candidates are beyond the limit.
-/

namespace Schemata.Name

open Text (editDistance editDistance_comm editDistance_snoc_snoc Edits isLeast_editDistance)

-- ---------------------------------------------------------------------------
-- The table of distances
-- ---------------------------------------------------------------------------

section

variable {b : Char}

/-- The row of the table for the text `bs`: its distances from the beginnings of `as`. -/
def distances (as bs : List Char) : List Nat :=
  as.inits.map (editDistance · bs)

theorem inits_eq_cons_tail (as : List Char) : as.inits = [] :: as.inits.tail := by
  cases as <;> simp

theorem tail_inits_cons (a : Char) (as : List Char) :
    (a :: as).inits.tail = [a] :: as.inits.tail.map (a :: ·) := by
  rw [List.inits_cons, List.tail_cons, inits_eq_cons_tail as]
  rfl

/-- The entries of the next row from one on that is known; `done` is the beginning of the first text
that this entry is for. -/
theorem distanceRow_eq (as bs done : List Char) :
    distanceRow b as (editDistance done bs) (as.inits.tail.map fun p => editDistance (done ++ p) bs)
        (editDistance done (bs ++ [b])) =
      as.inits.tail.map fun p => editDistance (done ++ p) (bs ++ [b]) := by
  induction as generalizing done with
  | nil => rfl
  | cons a as ih =>
    have hnext := ih (done ++ [a])
    have hentry := editDistance_snoc_snoc a b done bs
    simp only [List.append_assoc, List.singleton_append] at hnext
    rw [tail_inits_cons, List.map_cons, List.map_cons, List.map_map, List.map_map, distanceRow]
    simp only [beq_iff_eq, Function.comp_def, ← hentry, hnext]

/-- A row gives the next one. -/
theorem nextRow_distances (as bs : List Char) (b : Char) :
    nextRow as (distances as bs) b = distances as (bs ++ [b]) := by
  have hrow := distanceRow_eq (b := b) as bs []
  have hcorner : (bs ++ [b]).length = bs.length + 1 := List.length_append
  simp only [Text.editDistance_nil_left, List.nil_append, hcorner] at hrow
  rw [distances, distances, inits_eq_cons_tail as, List.map_cons, List.map_cons, nextRow,
    Text.editDistance_nil_left, Text.editDistance_nil_left, hcorner, hrow]

theorem foldl_nextRow (as bs done : List Char) :
    bs.foldl (nextRow as) (distances as done) = distances as (done ++ bs) := by
  induction bs generalizing done with
  | nil => rw [List.foldl_nil, List.append_nil]
  | cons b bs ih => rw [List.foldl_cons, nextRow_distances, ih, List.append_assoc, List.singleton_append]

/-- In the first row stand the lengths of the beginnings. -/
theorem distances_nil (as : List Char) : distances as [] = List.range (as.length + 1) := by
  rw [distances]
  apply List.ext_getElem
  · rw [List.length_map, List.length_inits, List.length_range]
  · intro i _ hi
    have hle : i ≤ as.length := by simpa [Nat.lt_succ_iff] using hi
    rw [List.getElem_map, List.getElem_inits, List.getElem_range, Text.editDistance_nil_right,
      List.length_take_of_le hle]

theorem distanceChars_eq (as bs : List Char) : distanceChars as bs = editDistance as bs := by
  have hlast : as.inits.getLast? = some as := by
    rw [List.getLast?_eq_getElem?]
    simp
  rw [distanceChars, ← distances_nil, foldl_nextRow, List.nil_append, distances, List.getLastD_eq_getLast?,
    List.getLast?_map, hlast]
  rfl

theorem distance_eq (a b : String) : distance a b = editDistance a.toList b.toList := by
  unfold distance
  split
  · rw [distanceChars_eq, editDistance_comm]
  · exact distanceChars_eq a.toList b.toList

end

-- ---------------------------------------------------------------------------
-- The candidate that is offered
-- ---------------------------------------------------------------------------

section

variable {name c candidate : String} {before after before' after' seen candidates : List String}
  {best : Option String × Nat}

/-- The candidate `c`, which stands between `before` and `after`, is to be offered for a name: it is near
enough, nearer than all before it and no farther than any after it. The name itself does not count. -/
structure Nearest (name : String) (before : List String) (c : String) (after : List String) : Prop where
  other : c ≠ name
  near : distance (key name) (key c) ≤ suggestLimit name
  earliest : ∀ x ∈ before, x ≠ name → distance (key name) (key c) < distance (key name) (key x)
  least : ∀ x ∈ after, x ≠ name → distance (key name) (key c) ≤ distance (key name) (key x)

/-- What is known of the candidates seen so far. -/
inductive Best (name : String) : List String → Option String × Nat → Prop where
  | far {seen : List String} :
      (∀ x ∈ seen, x ≠ name → suggestLimit name < distance (key name) (key x)) →
      Best name seen (none, suggestLimit name + 1)
  | found {before : List String} {c : String} {after : List String} : Nearest name before c after →
      Best name (before ++ c :: after) (some c, distance (key name) (key c))

/-- A candidate that is not nearer changes nothing. -/
theorem Best.stay (h : Best name seen best)
    (hfar : candidate ≠ name → best.2 ≤ distance (key name) (key candidate)) :
    Best name (seen ++ [candidate]) best := by
  cases h with
  | far hall =>
    refine .far fun x hx hne => ?_
    obtain hx | hx := List.mem_append.mp hx
    · exact hall x hx hne
    · obtain rfl := List.mem_singleton.mp hx
      exact hfar hne
  | found h =>
    dsimp only at hfar
    rw [List.append_assoc, List.cons_append]
    refine .found { h with least := fun x hx hne => ?_ }
    obtain hx | hx := List.mem_append.mp hx
    · exact h.least x hx hne
    · obtain rfl := List.mem_singleton.mp hx
      exact hfar hne

/-- A nearer candidate is nearer than all before it. -/
theorem Best.improve (h : Best name seen best) (hne : candidate ≠ name)
    (hnear : distance (key name) (key candidate) < best.2) :
    Best name (seen ++ [candidate]) (some candidate, distance (key name) (key candidate)) := by
  cases h with
  | far hall =>
    have hlimit : distance (key name) (key candidate) ≤ suggestLimit name := Nat.le_of_lt_succ hnear
    exact .found ⟨hne, hlimit, fun x hx hxne => hlimit.trans_lt (hall x hx hxne),
      fun _ hx => absurd hx List.not_mem_nil⟩
  | found h =>
    dsimp only at hnear
    refine .found ⟨hne, hnear.le.trans h.near, fun x hx hxne => ?_, fun _ hx => absurd hx List.not_mem_nil⟩
    obtain hx | hx := List.mem_append.mp hx
    · exact hnear.trans (h.earliest x hx hxne)
    obtain rfl | hx := List.mem_cons.mp hx
    · exact hnear
    · exact hnear.trans_le (h.least x hx hxne)

theorem Best.nearer (h : Best name seen best) (candidate : String) :
    Best name (seen ++ [candidate]) (nearer name best candidate) := by
  unfold Name.nearer
  split
  case isTrue heq => exact h.stay fun hne => absurd (beq_iff_eq.mp heq) hne
  case isFalse hne =>
    dsimp only
    split
    case isTrue hnear => exact h.improve (by simpa using hne) hnear
    case isFalse hfar => exact h.stay fun _ => Nat.le_of_not_lt hfar

theorem Best.foldl (h : Best name seen best) (candidates : List String) :
    Best name (seen ++ candidates) (candidates.foldl (Name.nearer name) best) := by
  induction candidates generalizing seen best with
  | nil => rwa [List.append_nil]
  | cons c cs ih =>
    rw [List.append_cons]
    exact ih (h.nearer c)

theorem best_candidates (name : String) (candidates : List String) :
    Best name candidates (candidates.foldl (nearer name) (none, suggestLimit name + 1)) := by
  have hnone : Best name [] (none, suggestLimit name + 1) := .far fun _ hx => absurd hx List.not_mem_nil
  exact hnone.foldl candidates

/-- Only one candidate is to be offered. -/
theorem Nearest.unique {c' : String} (h : Nearest name before c after) (h' : Nearest name before' c' after')
    (heq : before ++ c :: after = before' ++ c' :: after') : c = c' := by
  obtain ⟨between, rfl, hrest⟩ | ⟨between, rfl, hrest⟩ := List.append_eq_append_iff.mp heq
  · cases between with
    | nil => exact (List.cons.inj hrest).1
    | cons x xs =>
      obtain ⟨rfl, rfl⟩ := List.cons.inj hrest
      have hlt := h'.earliest c (by simp) h.other
      have hle := h.least c' (by simp) h'.other
      omega
  · cases between with
    | nil => exact (List.cons.inj hrest).1.symm
    | cons x xs =>
      obtain ⟨rfl, rfl⟩ := List.cons.inj hrest
      have hlt := h.earliest c' (by simp) h'.other
      have hle := h'.least c (by simp) h.other
      omega

theorem suggest?_eq_some_iff : suggest? name candidates = some c ↔
    ∃ before after, candidates = before ++ c :: after ∧ Nearest name before c after := by
  have hbest := best_candidates name candidates
  rw [suggest?]
  generalize candidates.foldl (nearer name) (none, suggestLimit name + 1) = best at hbest ⊢
  cases hbest with
  | far hall =>
    refine ⟨nofun, ?_⟩
    rintro ⟨before, after, rfl, h⟩
    have hfar := hall c (by simp) h.other
    exact absurd h.near (Nat.not_le.mpr hfar)
  | @found before c' after h =>
    constructor
    · rintro ⟨⟩
      exact ⟨before, after, rfl, h⟩
    · rintro ⟨before', after', heq, h'⟩
      exact congrArg some (h.unique h' heq)

theorem suggest?_eq_none_iff : suggest? name candidates = none ↔
    ∀ x ∈ candidates, x ≠ name → suggestLimit name < distance (key name) (key x) := by
  have hbest := best_candidates name candidates
  rw [suggest?]
  generalize candidates.foldl (nearer name) (none, suggestLimit name + 1) = best at hbest ⊢
  cases hbest with
  | far hall => exact ⟨fun _ => hall, fun _ => rfl⟩
  | @found before c after h =>
    refine ⟨nofun, fun hall => ?_⟩
    have hfar := hall c (by simp) h.other
    exact absurd h.near (Nat.not_le.mpr hfar)

end

-- ---------------------------------------------------------------------------
-- Both together
-- ---------------------------------------------------------------------------

/-- The table gives the least number of edits, and the earliest candidate whose key takes the fewest is
offered, unless all take too many. -/
theorem suggest?_fewest_edits (a b name : String) (candidates : List String) :
    distance a b = editDistance a.toList b.toList ∧
    IsLeast {n | Edits n a.toList b.toList} (distance a b) ∧
    (∀ c, suggest? name candidates = some c ↔
      ∃ before after, candidates = before ++ c :: after ∧ Nearest name before c after) ∧
    (suggest? name candidates = none ↔
      ∀ x ∈ candidates, x ≠ name → suggestLimit name < distance (key name) (key x)) := by
  have heq := distance_eq a b
  refine ⟨heq, ?_, fun c => suggest?_eq_some_iff, suggest?_eq_none_iff⟩
  rw [heq]
  exact isLeast_editDistance a.toList b.toList

example : distance "saturday" "sunday" = 3 ∧
    suggest? "Costumer" ["Address", "Order", "OrderLine", "Customer"] = some "Customer" := by
  decide +kernel

end Schemata.Name
