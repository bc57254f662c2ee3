import Mathlib.Data.List.Basic
import Mathlib.Data.List.Forall2
import Mathlib.Data.List.Nodup
import Mathlib.Data.List.Perm.Basic

/-!
# Lists without repetition, lists of results

What the other proofs need about `eraseDups`, about groups by a key and about mapping a function
that can fail.
-/

namespace Schemata.Lists

variable {α β ε : Type}

theorem nodup_eraseDups [BEq α] [LawfulBEq α] (xs : List α) : xs.eraseDups.Nodup := by
  -- the recursion is on a filtered list, so the induction is on the length
  induction hn : xs.length using Nat.strongRecOn generalizing xs with
  | ind n ih =>
    cases xs with
    | nil => simp
    | cons x xs =>
      rw [List.eraseDups_cons, List.nodup_cons]
      refine ⟨by simp, ih _ ?_ _ rfl⟩
      rw [← hn, List.length_cons]
      exact Nat.lt_succ_of_le (List.length_filter_le _ _)

/-- A function that tells items apart may be applied before or after repetitions go. -/
theorem eraseDups_map [BEq α] [LawfulBEq α] [BEq β] [LawfulBEq β] {xs : List α} {g : α → β}
    (hinj : ∀ x ∈ xs, ∀ y ∈ xs, g x = g y → x = y) : (xs.map g).eraseDups = xs.eraseDups.map g := by
  induction hn : xs.length using Nat.strongRecOn generalizing xs with
  | ind n ih =>
    cases xs with
    | nil => rfl
    | cons x xs =>
      have hshorter : (xs.filter fun b => !(b == x)).length < n := by
        rw [← hn, List.length_cons]
        exact Nat.lt_succ_of_le (List.length_filter_le _ _)
      have hsame : xs.filter ((fun b => !(b == g x)) ∘ g) = xs.filter fun b => !(b == x) := by
        refine List.filter_congr fun y hy => ?_
        have hiff : g y = g x ↔ y = x :=
          ⟨hinj y (List.mem_cons_of_mem _ hy) x List.mem_cons_self, congrArg g⟩
        rw [Function.comp_apply, Bool.eq_iff_iff, Bool.not_eq_true', Bool.not_eq_true', beq_eq_false_iff_ne,
          beq_eq_false_iff_ne]
        exact not_congr hiff
      have hrest : ∀ y ∈ xs.filter fun b => !(b == x), y ∈ x :: xs := fun y hy =>
        List.mem_cons_of_mem _ (List.mem_of_mem_filter hy)
      rw [List.map_cons, List.eraseDups_cons, List.eraseDups_cons, List.map_cons, List.filter_map, hsame,
        ih _ hshorter (fun y hy z hz => hinj y (hrest y hy) z (hrest z hz)) rfl]

/-- Items that a filter keeps stay in the order in which they come first. -/
theorem idxOf_lt_of_filter [BEq α] [LawfulBEq α] {xs : List α} {p : α → Bool} {a b : α}
    (hb : p b = true) (hlt : (xs.filter p).idxOf a < (xs.filter p).idxOf b) :
    xs.idxOf a < xs.idxOf b := by
  induction xs with
  | nil => exact hlt
  | cons x xs ih =>
    by_cases hxb : x = b
    · rw [List.filter_cons_of_pos (hxb ▸ hb), hxb, List.idxOf_cons_self] at hlt
      exact absurd hlt (Nat.not_lt_zero _)
    rw [List.idxOf_cons_ne xs hxb]
    by_cases hxa : x = a
    · rw [hxa, List.idxOf_cons_self]
      exact Nat.succ_pos _
    rw [List.idxOf_cons_ne xs hxa]
    refine Nat.succ_lt_succ (ih ?_)
    by_cases hx : p x = true
    · rw [List.filter_cons_of_pos hx, List.idxOf_cons_ne _ hxa, List.idxOf_cons_ne _ hxb] at hlt
      exact Nat.lt_of_succ_lt_succ hlt
    · rwa [List.filter_cons_of_neg hx] at hlt

/-- What is left without repetition is in the order in which it comes first. -/
theorem pairwise_idxOf_eraseDups [BEq α] [LawfulBEq α] (xs : List α) :
    xs.eraseDups.Pairwise fun a b => xs.idxOf a < xs.idxOf b := by
  induction hn : xs.length using Nat.strongRecOn generalizing xs with
  | ind n ih =>
    cases xs with
    | nil => simp
    | cons x xs =>
      have hother : ∀ a ∈ (xs.filter fun b => !(b == x)).eraseDups, (!(a == x)) = true := fun a ha =>
        (List.mem_filter.mp (List.mem_eraseDups.mp ha)).2
      have hne : ∀ a ∈ (xs.filter fun b => !(b == x)).eraseDups, x ≠ a := fun a ha heq => by
        simpa [heq] using hother a ha
      rw [List.eraseDups_cons, List.pairwise_cons]
      constructor
      · intro a ha
        rw [List.idxOf_cons_self, List.idxOf_cons_ne xs (hne a ha)]
        exact Nat.succ_pos _
      · have hshorter : (xs.filter fun b => !(b == x)).length < n := by
          rw [← hn, List.length_cons]
          exact Nat.lt_succ_of_le (List.length_filter_le _ _)
        refine (ih _ hshorter _ rfl).imp_of_mem fun {a b} ha hb hlt => ?_
        rw [List.idxOf_cons_ne xs (hne a ha), List.idxOf_cons_ne xs (hne b hb)]
        exact Nat.succ_lt_succ (idxOf_lt_of_filter (hother b hb) hlt)

/-- With distinct keys a search by key finds the item that has it. -/
theorem find?_key_eq_some_iff [BEq β] [LawfulBEq β] {key : α → β} {xs : List α}
    (hkeys : (xs.map key).Nodup) {k : β} {x : α} :
    xs.find? (key · == k) = some x ↔ x ∈ xs ∧ key x = k := by
  constructor
  · intro hfind
    exact ⟨List.mem_of_find?_eq_some hfind, by simpa using List.find?_some hfind⟩
  · rintro ⟨hx, rfl⟩
    cases hfind : xs.find? (key · == key x) with
    | none => simpa using List.find?_eq_none.mp hfind x hx
    | some y =>
      have hy : key y = key x := by simpa using List.find?_some hfind
      rw [List.inj_on_of_nodup_map hkeys (List.mem_of_find?_eq_some hfind) hx hy]

/-- With distinct keys an item is the only one with its key. -/
theorem filter_key_eq_singleton [BEq β] [LawfulBEq β] {key : α → β} {xs : List α}
    (hkeys : (xs.map key).Nodup) {x : α} (hx : x ∈ xs) : xs.filter (key · == key x) = [x] := by
  induction xs with
  | nil => exact absurd hx List.not_mem_nil
  | cons y xs ih =>
    obtain ⟨hy, hkeys⟩ := List.nodup_cons.mp hkeys
    obtain rfl | hx := List.mem_cons.mp hx
    · have hrest : xs.filter (key · == key x) = [] := by
        refine List.filter_eq_nil_iff.mpr fun z hz hzx => hy ?_
        exact eq_of_beq hzx ▸ List.mem_map_of_mem hz
      rw [List.filter_cons_of_pos (by simp), hrest]
    · have hyx : key y ≠ key x := fun hyx => hy (hyx ▸ List.mem_map_of_mem hx)
      rw [List.filter_cons_of_neg (by simpa using hyx), ih hkeys hx]

/-- The groups of items by all their keys make up the items. -/
theorem flatMap_filter_perm [BEq β] [LawfulBEq β] {key : α → β} {keys : List β} {items : List α}
    (hkeys : keys.Nodup) (hmem : ∀ x ∈ items, key x ∈ keys) :
    (keys.flatMap fun k => items.filter (key · == k)).Perm items := by
  induction keys generalizing items with
  | nil => simp [List.eq_nil_iff_forall_not_mem.mpr fun x hx => List.not_mem_nil (hmem x hx)]
  | cons k keys ih =>
    obtain ⟨hk, hkeys⟩ := List.nodup_cons.mp hkeys
    -- the other groups are groups of the items with other keys
    have hrest : (keys.flatMap fun j => items.filter (key · == j)) =
        keys.flatMap fun j => (items.filter fun x => !(key x == k)).filter (key · == j) := by
      refine List.flatMap_congr fun j hj => ?_
      rw [List.filter_filter]
      refine List.filter_congr fun x _ => ?_
      have hjk : j ≠ k := fun hjk => hk (hjk ▸ hj)
      by_cases hx : key x = j
      · simp [hx, hjk]
      · simp [hx]
    rw [List.flatMap_cons, hrest]
    refine (List.Perm.append_left _ (ih hkeys fun x hx => ?_)).trans
      (List.filter_append_perm (key · == k) items)
    obtain ⟨hx, hne⟩ := List.mem_filter.mp hx
    exact (List.mem_cons.mp (hmem x hx)).resolve_left (by simpa using hne)

theorem flatMap_filter (p : α → Bool) (f : α → List β) (xs : List α) :
    (xs.filter p).flatMap f = xs.flatMap fun x => if p x then f x else [] := by
  induction xs with
  | nil => rfl
  | cons x xs ih =>
    rw [List.flatMap_cons, ← ih, List.filter_cons]
    split
    · rfl
    · rfl

theorem flatMap_sublist {xs ys : List α} (h : xs.Sublist ys) (f : α → List β) :
    (xs.flatMap f).Sublist (ys.flatMap f) := by
  induction h with
  | slnil => exact .slnil
  | cons y _ ih =>
    rw [List.flatMap_cons]
    exact ih.trans (List.sublist_append_right _ _)
  | cons_cons x _ ih =>
    rw [List.flatMap_cons, List.flatMap_cons]
    exact ih.append_left _

theorem modify_append_cons (front back : List α) (x : α) (g : α → α) :
    (front ++ x :: back).modify front.length g = front ++ g x :: back := by
  induction front with
  | nil => rfl
  | cons y front ih => simpa using ih

/-- If at most one item satisfies the condition, changing the first one changes all. -/
theorem modify_findIdx?_eq_map {p : α → Bool} {xs : List α} {i : Nat} (hi : xs.findIdx? p = some i)
    (honce : xs.Pairwise fun x y => p x = true → p y = false) (g : α → α) :
    xs.modify i g = xs.map fun x => if p x then g x else x := by
  induction xs generalizing i with
  | nil => cases hi
  | cons x xs ih =>
    obtain ⟨hx, honce⟩ := List.pairwise_cons.mp honce
    rw [List.findIdx?_cons] at hi
    cases hp : p x with
    | true =>
      obtain rfl : 0 = i := by simpa [hp] using hi
      have hrest : (xs.map fun y => if p y then g y else y) = xs :=
        (List.map_congr_left fun y hy => by simp [hx y hy hp]).trans (List.map_id xs)
      rw [List.map_cons, hrest, hp]
      rfl
    | false =>
      simp only [hp, Bool.false_eq_true, if_false, Option.map_eq_some_iff] at hi
      obtain ⟨j, hj, rfl⟩ := hi
      rw [List.map_cons, hp, ← ih hj honce]
      rfl

theorem map_eq_of_forall₂ {xs ys : List α} {g : α → β} (h : List.Forall₂ (fun x y => g y = g x) xs ys) :
    ys.map g = xs.map g := by
  induction h with
  | nil => rfl
  | cons hxy _ ih => rw [List.map_cons, List.map_cons, hxy, ih]

theorem exists_mem_of_forall₂ {R : α → β → Prop} {xs : List α} {ys : List β}
    (h : List.Forall₂ R xs ys) {y : β} (hy : y ∈ ys) : ∃ x ∈ xs, R x y := by
  induction h with
  | nil => exact absurd hy List.not_mem_nil
  | cons hxy _ ih =>
    obtain rfl | hy := List.mem_cons.mp hy
    · exact ⟨_, List.mem_cons_self, hxy⟩
    · obtain ⟨x, hx, hxy⟩ := ih hy
      exact ⟨x, List.mem_cons_of_mem _ hx, hxy⟩

theorem exists_of_forall₂_append {R : α → β → Prop} {xs xs' : List α} {ys : List β}
    (h : List.Forall₂ R (xs ++ xs') ys) :
    ∃ zs zs', ys = zs ++ zs' ∧ List.Forall₂ R xs zs ∧ List.Forall₂ R xs' zs' := by
  induction xs generalizing ys with
  | nil => exact ⟨[], ys, rfl, .nil, h⟩
  | cons x xs ih =>
    cases h with
    | cons hxy h =>
      obtain ⟨zs, zs', rfl, hzs, hzs'⟩ := ih h
      exact ⟨_ :: zs, zs', rfl, .cons hxy hzs, hzs'⟩

theorem forall₂_mapIdx {R : α → β → Prop} {xs : List α} {g : Nat → α → β}
    (h : ∀ i x, xs[i]? = some x → R x (g i x)) : List.Forall₂ R xs (xs.mapIdx g) := by
  induction xs generalizing g with
  | nil => exact .nil
  | cons x xs ih =>
    rw [List.mapIdx_cons]
    exact .cons (h 0 x rfl) (ih fun i y hy => h (i + 1) y hy)

theorem mapM_eq_ok_iff {f : α → Except ε β} {xs : List α} {ys : List β} :
    xs.mapM f = .ok ys ↔ List.Forall₂ (fun x y => f x = .ok y) xs ys := by
  induction xs generalizing ys with
  | nil =>
    rw [List.mapM_nil, List.forall₂_nil_left_iff]
    exact ⟨fun h => (Except.ok.inj h).symm, fun h => congrArg Except.ok h.symm⟩
  | cons x xs ih =>
    rw [List.mapM_cons, List.forall₂_cons_left_iff]
    cases hx : f x with
    | error e =>
      refine iff_of_false (fun h => ?_) (fun ⟨_, _, h, _⟩ => ?_)
      · cases h
      · cases h
    | ok y =>
      cases hxs : xs.mapM f with
      | error e =>
        refine iff_of_false (fun h => ?_) (fun ⟨_, zs, _, hzs, _⟩ => ?_)
        · cases h
        · rw [ih.mpr hzs] at hxs
          cases hxs
      | ok rest =>
        constructor
        · intro h
          obtain rfl : y :: rest = ys := Except.ok.inj h
          exact ⟨y, rest, rfl, ih.mp hxs, rfl⟩
        · rintro ⟨z, zs, hz, hzs, rfl⟩
          obtain rfl : y = z := Except.ok.inj hz
          obtain rfl : rest = zs := Except.ok.inj (hxs.symm.trans (ih.mpr hzs))
          rfl

end Schemata.Lists
