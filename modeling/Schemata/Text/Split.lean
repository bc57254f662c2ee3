/-!
# Cutting texts

Cuts work on lists of characters. `splitOn` keeps empty pieces, so joining the pieces with the
separator gives the text back. A text is cut at the first separator or at the last one: on one side of
the cut there is none. White space of any script parts the words of a text.
-/

namespace Schemata.Text

/-- The pieces of a text between the separators, at least one. -/
def splitOn (sep : Char) : List Char → List (List Char)
  | [] => [[]]
  | c :: cs =>
    match splitOn sep cs with
    | [] => [[c]]
    | piece :: pieces => if c == sep then [] :: piece :: pieces else (c :: piece) :: pieces

/-- The pieces of a text between the separators. -/
def split (sep : Char) (s : String) : List String :=
  (splitOn sep s.toList).map String.ofList

/-- What stands before and after the first separator, if there is one. -/
def cut? (sep : Char) : List Char → Option (List Char × List Char)
  | [] => none
  | c :: cs =>
    if c == sep then some ([], cs) else (cut? sep cs).map fun (before, after) => (c :: before, after)

/-- What stands before and after the last separator, if there is one. -/
def cutLast? (sep : Char) (cs : List Char) : Option (List Char × List Char) :=
  (cut? sep cs.reverse).map fun (after, before) => (before.reverse, after.reverse)

/-- What follows a prefix, if the text starts with it. -/
def after? : List Char → List Char → Option (List Char)
  | [], cs => some cs
  | _ :: _, [] => none
  | p :: ps, c :: cs => if p == c then after? ps cs else none

/-- What follows the first occurrence of a marker, if there is one. -/
def afterFirst? (marker : List Char) : List Char → Option (List Char)
  | [] => after? marker []
  | c :: cs => (after? marker (c :: cs)).or (afterFirst? marker cs)

def contains (part s : String) : Bool :=
  (afterFirst? part.toList s.toList).isSome

variable {sep : Char} {cs before after : List Char}

theorem cut?_append (hbefore : sep ∉ before) (after : List Char) :
    cut? sep (before ++ sep :: after) = some (before, after) := by
  induction before with
  | nil => simp [cut?]
  | cons c cs ih =>
    rw [List.cons_append, cut?, if_neg (by simpa using (List.ne_of_not_mem_cons hbefore).symm),
      ih (List.not_mem_of_not_mem_cons hbefore)]
    rfl

theorem cut?_eq_none (hcs : sep ∉ cs) : cut? sep cs = none := by
  induction cs with
  | nil => rfl
  | cons c cs ih =>
    rw [cut?, if_neg (by simpa using (List.ne_of_not_mem_cons hcs).symm), ih (List.not_mem_of_not_mem_cons hcs)]
    rfl

theorem cut?_eq_some_iff : cut? sep cs = some (before, after) ↔ sep ∉ before ∧ cs = before ++ sep :: after := by
  constructor
  · intro h
    by_cases hcs : sep ∈ cs
    · obtain ⟨bs, as, rfl, hbs⟩ := List.eq_append_cons_of_mem hcs
      obtain ⟨rfl, rfl⟩ := Prod.mk.inj (Option.some.inj ((cut?_append hbs as).symm.trans h))
      exact ⟨hbs, rfl⟩
    · simp [cut?_eq_none hcs] at h
  · rintro ⟨hbefore, rfl⟩
    exact cut?_append hbefore after

/-- The last cut is before what has no separator. -/
theorem cutLast?_append (hafter : sep ∉ after) (before : List Char) :
    cutLast? sep (before ++ sep :: after) = some (before, after) := by
  have hreverse : (before ++ sep :: after).reverse = after.reverse ++ sep :: before.reverse := by simp
  rw [cutLast?, hreverse, cut?_append (by rwa [List.mem_reverse])]
  simp

theorem cutLast?_eq_none (hcs : sep ∉ cs) : cutLast? sep cs = none := by
  rw [cutLast?, cut?_eq_none (by rwa [List.mem_reverse])]
  rfl

-- ---------------------------------------------------------------------------
-- Blanks
-- ---------------------------------------------------------------------------

/-- White space: the six ASCII blanks and the separators of Unicode. -/
def isBlank (c : Char) : Bool :=
  let n := c.toNat
  (0x09 ≤ n && n ≤ 0x0D) || n == 0x20 || n == 0x85 || n == 0xA0 || n == 0x1680 ||
    (0x2000 ≤ n && n ≤ 0x200A) || n == 0x2028 || n == 0x2029 || n == 0x202F || n == 0x205F ||
    n == 0x3000

/-- A text without blanks at either end. -/
def trim (s : String) : String :=
  String.ofList (((s.toList.dropWhile isBlank).reverse.dropWhile isBlank).reverse)

/-- Cuts a text where `p` holds and drops what is empty. -/
def wordsBy (p : Char → Bool) : List Char → List (List Char) :=
  fun cs => (cs.foldr (fun c (acc : List Char × List (List Char)) =>
    if p c then ([], if acc.1.isEmpty then acc.2 else acc.1 :: acc.2) else (c :: acc.1, acc.2))
    ([], [])) |> fun (word, rest) => if word.isEmpty then rest else word :: rest

/-- The words of a text, cut at blanks. -/
def words (s : String) : List String :=
  (wordsBy isBlank s.toList).map String.ofList

end Schemata.Text
