/-!
# Groups and totals

Items of one key come together; keys are in the order of first mention, and the items of a key keep
their order. The total of numbers does not depend on theirs.
-/

namespace Schemata.Lists

variable {α κ : Type} [BEq κ]

/-- The items with each key. -/
def groupBy (key : α → κ) (xs : List α) : List (κ × List α) :=
  (xs.map key).eraseDups.map fun k => (k, xs.filter fun x => key x == k)

/-- The sum of numbers. -/
def total : List Nat → Nat
  | [] => 0
  | n :: ns => n + total ns

theorem total_perm {ms ns : List Nat} (h : ms.Perm ns) : total ms = total ns := by
  induction h with
  | nil => rfl
  | cons n _ ih => rw [total, total, ih]
  | swap m n ns => rw [total, total, total, total, Nat.add_left_comm]
  | trans _ _ ih ih' => exact ih.trans ih'

end Schemata.Lists
