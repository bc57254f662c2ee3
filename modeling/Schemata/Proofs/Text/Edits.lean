import Mathlib.Data.List.Basic
import Mathlib.Order.Bounds.Basic

/-!
# Edits of a text

One edit inserts, deletes or substitutes a character anywhere in a text. The edit distance of two texts
is defined by recursion on their first characters, and it is the least number of edits that turn one
into the other (`isLeast_editDistance`). So it does not depend on the order of the two texts, nor on the
end at which the recursion starts (`editDistance_snoc_snoc`).
-/

namespace Schemata.Text

variable {as bs cs : List Char} {a b c : Char} {m n : Nat}

/-- The second text is the first after one edit. -/
inductive Edit : List Char → List Char → Prop where
  | insert (before after : List Char) (c : Char) : Edit (before ++ after) (before ++ c :: after)
  | delete (before after : List Char) (c : Char) : Edit (before ++ c :: after) (before ++ after)
  | substitute (before after : List Char) (c d : Char) :
      Edit (before ++ c :: after) (before ++ d :: after)

/-- The second text is the first after `n` edits, one after the other. -/
inductive Edits : Nat → List Char → List Char → Prop where
  | none (as : List Char) : Edits 0 as as
  | next {n : Nat} {as bs cs : List Char} : Edit as bs → Edits n bs cs → Edits (n + 1) as cs

/-- The edit distance of two texts: equal first characters stay, and of different ones the first is
deleted, inserted or substituted, whatever costs least. -/
def editDistance : List Char → List Char → Nat
  | [], bs => bs.length
  | a :: as, [] => (a :: as).length
  | a :: as, b :: bs =>
    if a = b then editDistance as bs
    else 1 + min (min (editDistance as (b :: bs)) (editDistance (a :: as) bs)) (editDistance as bs)
termination_by as bs => as.length + bs.length

-- ---------------------------------------------------------------------------
-- Edits
-- ---------------------------------------------------------------------------

theorem Edit.symm (h : Edit as bs) : Edit bs as := by
  cases h with
  | insert before after c => exact .delete before after c
  | delete before after c => exact .insert before after c
  | substitute before after c d => exact .substitute before after d c

theorem Edit.cons (c : Char) (h : Edit as bs) : Edit (c :: as) (c :: bs) := by
  cases h with
  | insert before after d => exact .insert (c :: before) after d
  | delete before after d => exact .delete (c :: before) after d
  | substitute before after d e => exact .substitute (c :: before) after d e

theorem Edit.reverse (h : Edit as bs) : Edit as.reverse bs.reverse := by
  cases h with
  | insert before after c => simpa using Edit.insert after.reverse before.reverse c
  | delete before after c => simpa using Edit.delete after.reverse before.reverse c
  | substitute before after c d => simpa using Edit.substitute after.reverse before.reverse c d

theorem Edits.snoc (h : Edits n as bs) (hlast : Edit bs cs) : Edits (n + 1) as cs := by
  induction h with
  | none as => exact .next hlast (.none _)
  | next hfirst _ ih => exact .next hfirst (ih hlast)

theorem Edits.symm (h : Edits n as bs) : Edits n bs as := by
  induction h with
  | none as => exact .none as
  | next hfirst _ ih => exact ih.snoc hfirst.symm

theorem Edits.cons (c : Char) (h : Edits n as bs) : Edits n (c :: as) (c :: bs) := by
  induction h with
  | none as => exact .none (c :: as)
  | next hfirst _ ih => exact .next (hfirst.cons c) ih

theorem Edits.reverse (h : Edits n as bs) : Edits n as.reverse bs.reverse := by
  induction h with
  | none as => exact .none as.reverse
  | next hfirst _ ih => exact .next hfirst.reverse ih

/-- A text is written out character by character. -/
theorem Edits.of_nil (bs : List Char) : Edits bs.length [] bs := by
  induction bs with
  | nil => exact .none []
  | cons b bs ih => exact ih.snoc (.insert [] bs b)

-- ---------------------------------------------------------------------------
-- The distance by recursion
-- ---------------------------------------------------------------------------

@[simp] theorem editDistance_nil_left (bs : List Char) : editDistance [] bs = bs.length := by
  rw [editDistance]

@[simp] theorem editDistance_nil_right (as : List Char) : editDistance as [] = as.length := by
  cases as <;> rw [editDistance]

theorem editDistance_cons_self (c : Char) (as bs : List Char) :
    editDistance (c :: as) (c :: bs) = editDistance as bs := by
  rw [editDistance, if_pos rfl]

theorem editDistance_cons_of_ne (h : a ≠ b) (as bs : List Char) : editDistance (a :: as) (b :: bs) =
    1 + min (min (editDistance as (b :: bs)) (editDistance (a :: as) bs)) (editDistance as bs) := by
  rw [editDistance, if_neg h]

theorem editDistance_comm (as bs : List Char) : editDistance as bs = editDistance bs as := by
  fun_induction editDistance as bs with
  | case1 bs => simp
  | case2 a as => simp
  | case3 a as bs ih => rw [ih, editDistance_cons_self]
  | case4 a as b bs hne ihas ihbs ih =>
    rw [ihas, ihbs, ih, editDistance_cons_of_ne (Ne.symm hne), Nat.min_comm (editDistance (b :: bs) as)]

/-- One more character in front changes the distance by one at most. -/
theorem editDistance_cons_bounds (as bs : List Char) (a : Char) :
    editDistance (a :: as) bs ≤ editDistance as bs + 1 ∧ editDistance as bs ≤ editDistance (a :: as) bs + 1 := by
  cases bs with
  | nil =>
    rw [editDistance_nil_right, editDistance_nil_right, List.length_cons]
    omega
  | cons b bs =>
    -- the same for the second text, which is shorter by one
    have hright := editDistance_cons_bounds bs as b
    rw [editDistance_comm (b :: bs), editDistance_comm bs] at hright
    by_cases hab : a = b
    · subst hab
      rw [editDistance_cons_self]
      exact hright.symm
    · have hleft := editDistance_cons_bounds as bs a
      rw [editDistance_cons_of_ne hab]
      omega
termination_by as.length + bs.length

/-- The three ways to go on from two first characters, equal or not. -/
theorem editDistance_cons_cons (a b : Char) (as bs : List Char) : editDistance (a :: as) (b :: bs) =
    min (min (editDistance (a :: as) bs + 1) (editDistance as (b :: bs) + 1))
      (editDistance as bs + if a = b then 0 else 1) := by
  by_cases hab : a = b
  · subst hab
    have hleft := (editDistance_cons_bounds as bs a).2
    have hright := (editDistance_cons_bounds bs as a).2
    rw [editDistance_comm bs, editDistance_comm (a :: bs)] at hright
    rw [editDistance_cons_self, if_pos rfl]
    omega
  · rw [editDistance_cons_of_ne hab, if_neg hab]
    omega

-- ---------------------------------------------------------------------------
-- The distance is the least number of edits
-- ---------------------------------------------------------------------------

theorem edits_editDistance (as bs : List Char) : Edits (editDistance as bs) as bs := by
  fun_induction editDistance as bs with
  | case1 bs => exact .of_nil bs
  | case2 a as => exact (Edits.of_nil (a :: as)).symm
  | case3 as b bs ih => exact ih.cons b
  | case4 a as b bs _ ihas ihbs ih =>
    generalize hdelete : editDistance as (b :: bs) = i at *
    generalize hinsert : editDistance (a :: as) bs = j at *
    generalize hsubstitute : editDistance as bs = k at *
    obtain hmin | hmin | hmin : 1 + min (min i j) k = i + 1 ∨ 1 + min (min i j) k = j + 1 ∨
        1 + min (min i j) k = k + 1 := by omega
    · rw [hmin]
      exact .next (.delete [] as a) ihas
    · rw [hmin]
      exact ihbs.snoc (.insert [] bs b)
    · rw [hmin]
      exact .next (.substitute [] as a b) (ih.cons b)

theorem editDistance_cons_le (h : ∀ bs, editDistance cs bs ≤ editDistance as bs + 1) (c : Char)
    (bs : List Char) : editDistance (c :: cs) bs ≤ editDistance (c :: as) bs + 1 := by
  induction bs with
  | nil => simpa using h []
  | cons b bs ih =>
    have hskip := h (b :: bs)
    have hboth := h bs
    rw [editDistance_cons_cons, editDistance_cons_cons]
    omega

/-- Texts that are one apart at most from every other stay so behind a common beginning. -/
theorem editDistance_append_le (h : ∀ bs, editDistance cs bs ≤ editDistance as bs + 1)
    (before : List Char) :
    ∀ bs, editDistance (before ++ cs) bs ≤ editDistance (before ++ as) bs + 1 := by
  induction before with
  | nil => exact h
  | cons c before ih => exact editDistance_cons_le ih c

theorem editDistance_substitute_le (a b : Char) (as bs : List Char) :
    editDistance (b :: as) bs ≤ editDistance (a :: as) bs + 1 := by
  induction bs with
  | nil => simp
  | cons c bs ih =>
    rw [editDistance_cons_cons, editDistance_cons_cons]
    split <;> split <;> omega

/-- One edit changes the distance by one at most. -/
theorem Edit.editDistance_le (h : Edit as cs) (bs : List Char) :
    editDistance cs bs ≤ editDistance as bs + 1 := by
  cases h with
  | insert before after c =>
    exact editDistance_append_le (fun bs => (editDistance_cons_bounds after bs c).1) before bs
  | delete before after c =>
    exact editDistance_append_le (fun bs => (editDistance_cons_bounds after bs c).2) before bs
  | substitute before after c d =>
    exact editDistance_append_le (editDistance_substitute_le c d after) before bs

theorem editDistance_self (as : List Char) : editDistance as as = 0 := by
  induction as with
  | nil => simp
  | cons a as ih => rw [editDistance_cons_self, ih]

theorem Edits.editDistance_le (h : Edits n as bs) : editDistance as bs ≤ n := by
  induction h with
  | none as => exact (editDistance_self as).le
  | @next n as bs cs hfirst _ ih =>
    calc editDistance as cs ≤ editDistance bs cs + 1 := hfirst.symm.editDistance_le cs
      _ ≤ n + 1 := Nat.succ_le_succ ih

theorem isLeast_editDistance (as bs : List Char) : IsLeast {n | Edits n as bs} (editDistance as bs) :=
  ⟨edits_editDistance as bs, fun _ h => h.editDistance_le⟩

-- ---------------------------------------------------------------------------
-- The recursion from the end
-- ---------------------------------------------------------------------------

theorem editDistance_reverse (as bs : List Char) :
    editDistance as.reverse bs.reverse = editDistance as bs := by
  apply Nat.le_antisymm
  · exact (edits_editDistance as bs).reverse.editDistance_le
  · simpa using (edits_editDistance as.reverse bs.reverse).reverse.editDistance_le

/-- The recursion may as well start from the last characters. -/
theorem editDistance_snoc_snoc (a b : Char) (as bs : List Char) : editDistance (as ++ [a]) (bs ++ [b]) =
    min (min (editDistance (as ++ [a]) bs + 1) (editDistance as (bs ++ [b]) + 1))
      (editDistance as bs + if a = b then 0 else 1) := by
  rw [← editDistance_reverse (as ++ [a]), ← editDistance_reverse (as ++ [a]) bs,
    ← editDistance_reverse as (bs ++ [b]), ← editDistance_reverse as bs]
  simp only [List.reverse_append, List.reverse_cons, List.reverse_nil, List.nil_append, List.singleton_append]
  exact editDistance_cons_cons a b as.reverse bs.reverse

end Schemata.Text
