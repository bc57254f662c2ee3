import Mathlib.Data.List.Nodup
import Mathlib.Data.List.Perm.Subperm
import Mathlib.Order.Bounds.Defs
import Schemata.Name.Key
import Schemata.Proofs.Text.Case

/-!
# Free names

Of the alternatives of a name no two have one key. The search for a free one therefore ends with the
first that is free, whatever keys are taken, and names that are given one after the other have keys of
their own.
-/

namespace Schemata.Name

variable {name : String} {taken : List String}

theorem key_append (a b : String) : key (a ++ b) = key a ++ key b := by
  simp [key, String.toList_append, String.ofList_append]

theorem not_isSeparator_of_isDigit {c : Char} (hc : c.isDigit) : isSeparator c = false := by
  simp [isSeparator, Text.isDecimal_of_isDigit hc]

/-- A number is its own key. -/
theorem key_toString (n : Nat) : key (toString n) = toString n := by
  have hdigits : ∀ c ∈ (toString n).toList, c.isDigit := by
    intro c hc
    rw [Nat.toString_eq_ofList_toDigits, String.toList_ofList] at hc
    exact Nat.isDigit_of_mem_toDigits (b := 10) (by decide) (by decide) hc
  have hfilter : (toString n).toList.filter (!isSeparator ·) = (toString n).toList :=
    List.filter_eq_self.mpr fun c hc => by rw [not_isSeparator_of_isDigit (hdigits c hc)]; rfl
  have hmap : (toString n).toList.map Text.lowerChar = (toString n).toList :=
    (List.map_congr_left fun c hc => Text.lowerChar_of_isDecimal (Text.isDecimal_of_isDigit (hdigits c hc))).trans
      (List.map_id _)
  rw [key, hfilter, hmap, String.ofList_toList]

theorem key_numbered (name : String) (n : Nat) :
    key (numbered name n) = key name ++ toString n := by
  have hmark : key "_" = "" := by decide
  rw [numbered, key_append, key_append, hmark, key_toString, String.append_empty]

theorem key_numbered_injective (name : String) : Function.Injective fun n => key (numbered name n) := by
  intro m n heq
  simp only [key_numbered] at heq
  have hstring := congrArg String.toList heq
  rw [String.toList_append, String.toList_append, List.append_cancel_left_eq] at hstring
  simp only [Nat.toString_eq_ofList_toDigits, String.toList_ofList] at hstring
  calc m = Nat.ofDigitChars 10 (Nat.toDigits 10 m) 0 := Nat.ofDigitChars_ten_toDigits.symm
    _ = Nat.ofDigitChars 10 (Nat.toDigits 10 n) 0 := by rw [hstring]
    _ = n := Nat.ofDigitChars_ten_toDigits

/-- The search gives up only after all tries, and has then passed taken keys alone. -/
theorem freeFrom_eq (name : String) (taken : List String) (tries n : Nat) : ∃ m,
    freeFrom name taken tries n = numbered name m ∧ m ≤ n + tries ∧
      (∀ k, n ≤ k → k < m → key (numbered name k) ∈ taken) ∧
      (key (numbered name m) ∈ taken → m = n + tries) := by
  induction tries generalizing n with
  | zero => exact ⟨n, rfl, Nat.le_refl n, fun k hle hlt => absurd hlt (Nat.not_lt.mpr hle), fun _ => rfl⟩
  | succ tries ih =>
    rw [freeFrom]
    split
    case isTrue htaken =>
      obtain ⟨m, heq, hle, hpassed, hlast⟩ := ih (n + 1)
      refine ⟨m, heq, by omega, fun k hk hkm => ?_, fun hm => by have := hlast hm; omega⟩
      obtain rfl | hk := Nat.eq_or_lt_of_le hk
      · exact htaken
      · exact hpassed k hk hkm
    case isFalse hfree =>
      exact ⟨n, rfl, Nat.le_add_right _ _, fun k hle hlt => absurd hlt (Nat.not_lt.mpr hle),
        fun htaken => absurd htaken hfree⟩

/-- One try more than there are keys finds a free alternative. -/
theorem key_freeFrom_not_mem (name : String) (taken : List String) (n : Nat) :
    key (freeFrom name taken taken.length n) ∉ taken := by
  obtain ⟨m, heq, -, hpassed, hlast⟩ := freeFrom_eq name taken taken.length n
  rw [heq]
  intro hmem
  obtain rfl := hlast hmem
  -- otherwise more keys were taken than there are
  have hsub : (List.range' n (taken.length + 1)).map (fun k => key (numbered name k)) ⊆ taken := by
    intro q hq
    obtain ⟨k, hk, rfl⟩ := List.mem_map.mp hq
    rw [List.mem_range'_1] at hk
    obtain rfl | hlt := Nat.eq_or_lt_of_le (Nat.le_of_lt_succ (show k < n + taken.length + 1 by omega))
    · exact hmem
    · exact hpassed k hk.1 hlt
  have hnodup : ((List.range' n (taken.length + 1)).map fun k => key (numbered name k)).Nodup :=
    List.Nodup.map (key_numbered_injective name) List.nodup_range'
  have hle := (hnodup.subperm hsub).length_le
  rw [List.length_map, List.length_range'] at hle
  omega

theorem key_nextFree_not_mem (name : String) (taken : List String) :
    key (nextFree name taken).1 ∉ taken :=
  key_freeFrom_not_mem name taken 1

theorem key_unique_not_mem (name : String) (taken : List String) : key (unique name taken).1 ∉ taken := by
  unfold unique
  split
  case isTrue => exact key_nextFree_not_mem name taken
  case isFalse hfree => exact hfree

/-- The search without a bound: it passes alternatives whose keys are taken and ends at the first whose
key is not. -/
inductive Search (name : String) (taken : List String) : Nat → String → Prop where
  | free {n : Nat} : key (numbered name n) ∉ taken → Search name taken n (numbered name n)
  | next {n : Nat} {found : String} : key (numbered name n) ∈ taken → Search name taken (n + 1) found →
      Search name taken n found

theorem search_freeFrom {tries n : Nat} (hfree : key (freeFrom name taken tries n) ∉ taken) :
    Search name taken n (freeFrom name taken tries n) := by
  induction tries generalizing n with
  | zero => exact .free hfree
  | succ tries ih =>
    rw [freeFrom] at hfree ⊢
    split at hfree
    case isTrue htaken =>
      rw [if_pos htaken]
      exact .next htaken (ih hfree)
    case isFalse hfree =>
      rw [if_neg hfree]
      exact .free hfree

theorem Search.unique {n : Nat} {found found' : String} (h : Search name taken n found)
    (h' : Search name taken n found') : found = found' := by
  induction h with
  | free hfree =>
    cases h' with
    | free => rfl
    | next htaken => exact absurd htaken hfree
  | next htaken _ ih =>
    cases h' with
    | free hfree => exact absurd htaken hfree
    | next _ h' => exact ih h'

theorem Search.congr {taken' : List String} (htaken : ∀ k, k ∈ taken' ↔ k ∈ taken) {n : Nat} {found : String}
    (h : Search name taken n found) : Search name taken' n found := by
  induction h with
  | free hfree => exact .free (mt (htaken _).mp hfree)
  | next hmem _ ih => exact .next ((htaken _).mpr hmem) ih

/-- The search ends at the first free alternative. -/
theorem Search.least {n : Nat} {found : String} (h : Search name taken n found) : ∃ m,
    found = numbered name m ∧ IsLeast {k | n ≤ k ∧ key (numbered name k) ∉ taken} m := by
  induction h with
  | @free n hfree => exact ⟨n, rfl, ⟨Nat.le_refl n, hfree⟩, fun k hk => hk.1⟩
  | @next n found htaken _ ih =>
    obtain ⟨m, hfound, ⟨hle, hfree⟩, hleast⟩ := ih
    refine ⟨m, hfound, ⟨by omega, hfree⟩, fun k hk => hleast ⟨?_, hk.2⟩⟩
    have hne : n ≠ k := fun heq => hk.2 (heq ▸ htaken)
    have hge := hk.1
    omega

theorem search_nextFree (name : String) (taken : List String) :
    Search name taken 1 (nextFree name taken).1 :=
  search_freeFrom (key_nextFree_not_mem name taken)

/-- Only which keys are taken matters, not how often or in which order. -/
theorem unique_congr (name : String) {taken' : List String} (htaken : ∀ k, k ∈ taken' ↔ k ∈ taken) :
    (unique name taken').1 = (unique name taken).1 := by
  unfold unique
  by_cases hmem : key name ∈ taken
  · rw [if_pos hmem, if_pos ((htaken _).mpr hmem)]
    exact (search_nextFree name taken').unique ((search_nextFree name taken).congr htaken)
  · rw [if_neg hmem, if_neg (mt (htaken _).mp hmem)]

/-- The key of the name that is given is taken. -/
theorem unique_snd (name : String) (taken : List String) :
    (unique name taken).2 = key (unique name taken).1 :: taken := by
  unfold unique
  split <;> rfl

-- ---------------------------------------------------------------------------
-- Requests for names
-- ---------------------------------------------------------------------------

/-- A name is asked for: the given one if it is free, or an alternative in any case. -/
inductive Request where
  | unique (name : String)
  | nextFree (name : String)

def Request.answer : Request → List String → String × List String
  | .unique name, taken => Name.unique name taken
  | .nextFree name, taken => Name.nextFree name taken

/-- The names that are given one after the other, and the keys that are then taken. -/
def answers : List Request → List String → List String × List String
  | [], taken => ([], taken)
  | request :: requests, taken =>
    let first := request.answer taken
    let rest := answers requests first.2
    (first.1 :: rest.1, rest.2)

/-- A name is given whose key is not taken, and then exactly that key is. -/
theorem Request.answer_fresh (request : Request) (taken : List String) :
    key (request.answer taken).1 ∉ taken ∧
      (request.answer taken).2 = key (request.answer taken).1 :: taken := by
  cases request with
  | unique name => exact ⟨key_unique_not_mem name taken, unique_snd name taken⟩
  | nextFree name => exact ⟨key_nextFree_not_mem name taken, rfl⟩

theorem answers_snd (requests : List Request) (taken : List String) :
    (answers requests taken).2 = ((answers requests taken).1.map key).reverse ++ taken := by
  induction requests generalizing taken with
  | nil => rfl
  | cons request requests ih =>
    have hfirst := (request.answer_fresh taken).2
    rw [answers, List.map_cons, List.reverse_cons, List.append_assoc, List.singleton_append, ← hfirst]
    exact ih _

/-- No key is given twice, and none that was taken. -/
theorem answers_fresh (requests : List Request) (taken : List String) :
    ((answers requests taken).1.map key).Nodup ∧ ∀ name ∈ (answers requests taken).1, key name ∉ taken := by
  induction requests generalizing taken with
  | nil => exact ⟨List.nodup_nil, fun _ hname => absurd hname List.not_mem_nil⟩
  | cons request requests ih =>
    obtain ⟨hfree, hfirst⟩ := request.answer_fresh taken
    have hrest := ih (request.answer taken).2
    rw [answers]
    generalize (answers requests (request.answer taken).2).1 = names at hrest ⊢
    rw [hfirst] at hrest
    obtain ⟨hnodup, hfresh⟩ := hrest
    constructor
    · refine List.nodup_cons.mpr ⟨fun hmem => ?_, hnodup⟩
      obtain ⟨name, hname, hkey⟩ := List.mem_map.mp hmem
      exact hfresh name hname (hkey ▸ List.mem_cons_self)
    · exact List.forall_mem_cons.mpr
        ⟨hfree, fun name hname htaken => hfresh name hname (List.mem_cons_of_mem _ htaken)⟩

/-- The search for a free alternative ends, with the first that is free, and takes its key alone. So the
names given in answer to any requests have keys of their own, which were not taken before. -/
theorem nextFree_first (name : String) (taken : List String) (requests : List Request) :
    (∀ found, Search name taken 1 found ↔ found = (nextFree name taken).1) ∧
    (∃ n, (nextFree name taken).1 = numbered name n ∧
      IsLeast {k | 1 ≤ k ∧ key (numbered name k) ∉ taken} n ∧
      (nextFree name taken).2 = key (numbered name n) :: taken) ∧
    ((answers requests taken).1.map key).Nodup ∧
    (∀ given ∈ (answers requests taken).1, key given ∉ taken) ∧
    ∀ k, k ∈ (answers requests taken).2 ↔ k ∈ taken ∨ k ∈ (answers requests taken).1.map key := by
  have hsearch := search_nextFree name taken
  obtain ⟨n, heq, hleast⟩ := hsearch.least
  obtain ⟨hnodup, hfresh⟩ := answers_fresh requests taken
  refine ⟨fun found => ⟨fun h => h.unique hsearch, fun h => h ▸ hsearch⟩, ⟨n, heq, hleast, ?_⟩, hnodup, hfresh,
    fun k => ?_⟩
  · rw [← heq]
    rfl
  · rw [answers_snd, List.mem_append, List.mem_reverse, or_comm]

end Schemata.Name
