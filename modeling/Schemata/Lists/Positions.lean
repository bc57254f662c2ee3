/-!
# Lists at positions

Removal and insertion at a position, which has to lie in the list.
-/

namespace Schemata.Lists

variable {α : Type}

/-- The list without the item at a position. -/
def removeAt? (xs : List α) (i : Int) : Option (List α) :=
  if 0 ≤ i ∧ i < xs.length then some (xs.eraseIdx i.toNat) else none

/-- The list with items before the one at a position, or at the end. -/
def insertAt? (xs : List α) (i : Int) (items : List α) : Option (List α) :=
  if 0 ≤ i ∧ i ≤ xs.length then some (xs.take i.toNat ++ items ++ xs.drop i.toNat) else none

theorem removeAt?_eq_none_iff (xs : List α) (i : Int) :
    removeAt? xs i = none ↔ i < 0 ∨ (xs.length : Int) ≤ i := by
  unfold removeAt?
  split <;> simp <;> omega

theorem insertAt?_eq_none_iff (xs : List α) (i : Int) (items : List α) :
    insertAt? xs i items = none ↔ i < 0 ∨ (xs.length : Int) < i := by
  unfold insertAt?
  split <;> simp <;> omega

end Schemata.Lists
