import Mathlib.Algebra.Group.Nat.Defs
import Mathlib.Data.List.Forall2
import Mathlib.Data.List.TakeDrop
import Schemata.Json.Scan
import Schemata.Json.Writer

/-!
# Scanning what is printed

A scanner takes off a text exactly what the writer has put there: a text in quotes, whatever
characters it has, and a whole number. Where the rules say so, the mark for what is no character comes
back three times.

A printed value is longer than its items and at least as long as it is deep, and the character that
ends a text for the reader is never printed. So a printed value is always read whole.
-/

namespace Schemata

namespace Json

variable {rules : TextRules} {e : Escaping} {c : Char} {cs rest : List Char} {ps : List Piece}

-- ---------------------------------------------------------------------------
-- Characters
-- ---------------------------------------------------------------------------

/-- How a character is written in a text. -/
inductive Written (c : Char) : List Char → Prop
  | escaped {l : Char} (hescape : ∀ rules, escape? rules l = some c) (hletter : l ≠ 'u')
      (hmark : c ≠ Text.replacement) : Written c ['\\', l]
  | coded (hcode : c.toNat ∈ List.range 0x20 ++ [0x26, 0x3C, 0x3E, 0x2028, 0x2029]) :
      Written c ("\\u" ++ Text.hex 4 c.toNat).toList
  | literal (hplain : 0x20 ≤ c.toNat) (hquote : c ≠ '"') (hslash : c ≠ '\\') : Written c [c]

theorem written_escapeChar (e : Escaping) (c : Char) : Written c (escapeChar e c).toList := by
  unfold escapeChar
  split
  · exact .escaped (fun _ => rfl) (by decide) (by decide)
  · exact .escaped (fun _ => rfl) (by decide) (by decide)
  · exact .escaped (fun _ => rfl) (by decide) (by decide)
  · exact .escaped (fun _ => rfl) (by decide) (by decide)
  · exact .escaped (fun _ => rfl) (by decide) (by decide)
  · rename_i hquote hslash _ _ _
    dsimp only
    split
    case isTrue hlow => exact .coded (List.mem_append_left _ (List.mem_range.mpr hlow))
    case isFalse hlow =>
      split
      case isTrue hmarkup =>
        refine .coded (List.mem_append_right _ ?_)
        simp only [Bool.and_eq_true, Bool.or_eq_true, beq_iff_eq] at hmarkup
        obtain ⟨-, (((rfl | rfl) | rfl) | h) | h⟩ := hmarkup
        · decide
        · decide
        · decide
        · simp [h]
        · simp [h]
      case isFalse =>
        rw [Char.toString, String.toList_singleton]
        exact .literal (Nat.le_of_not_lt hlow) hquote hslash

theorem coded_digits : ∀ n ∈ List.range 0x20 ++ [0x26, 0x3C, 0x3E, 0x2028, 0x2029],
    (Text.hex 4 n).toList.length = 4 ∧ n < 0xD800 ∧ Char.ofNat n ≠ Text.replacement ∧
      '"' ∉ (Text.hex 4 n).toList ∧ '\\' ∉ (Text.hex 4 n).toList ∧
      ∀ lax, hexNumber? { laxDigits := lax } (Text.hex 4 n).toList = some n := by
  decide +kernel

-- ---------------------------------------------------------------------------
-- Texts
-- ---------------------------------------------------------------------------

/-- A piece that stands for a character. -/
inductive Piece.Stands (c : Char) : Piece → Prop
  | unit (hlow : c.toNat < 0xD800) (hmark : c ≠ Text.replacement) : Stands c (.unit c.toNat)
  | escaped (hmark : c ≠ Text.replacement) : Stands c (.escaped c)
  | literal : Stands c (.literal c)

theorem Written.pieces? (h : Written c cs) (rules : TextRules) :
    ∃ p, Piece.Stands c p ∧ ∀ rest, pieces? rules (cs ++ rest) =
      (pieces? rules rest).map fun (ps, rest) => (p :: ps, rest) := by
  cases h with
  | @escaped l hescape hletter hmark =>
    refine ⟨.escaped c, .escaped hmark, fun rest => ?_⟩
    rw [List.cons_append, List.cons_append, List.nil_append, Json.pieces?, hescape]
    · cases Json.pieces? rules rest <;> rfl
    · exact fun _ _ _ _ _ heq => absurd heq hletter
  | coded hcode =>
    obtain ⟨hlength, hlow, hmark, -, -, hnumber⟩ := coded_digits _ hcode
    rw [Char.ofNat_toNat] at hmark
    refine ⟨.unit c.toNat, .unit hlow hmark, fun rest => ?_⟩
    have hvalue : hexNumber? rules (Text.hex 4 c.toNat).toList = some c.toNat :=
      hnumber rules.laxDigits
    rw [String.toList_append]
    generalize (Text.hex 4 c.toNat).toList = digits at hlength hvalue
    match digits, hlength with
    | [a, b, c', d], _ =>
      change Json.pieces? rules ('\\' :: 'u' :: a :: b :: c' :: d :: rest) = _
      rw [Json.pieces?, hvalue]
      cases Json.pieces? rules rest <;> rfl
  | literal hplain hquote hslash =>
    refine ⟨.literal c, .literal, fun rest => ?_⟩
    have hcontrol : ¬ (decide (c.toNat < 0x20) && !rules.controls) = true := by
      rw [decide_eq_false (Nat.not_lt.mpr hplain), Bool.false_and]
      exact Bool.false_ne_true
    rw [List.cons_append, List.nil_append, Json.pieces?, if_neg hcontrol]
    · cases Json.pieces? rules rest <;> rfl
    · exact hquote
    · exact fun _ _ _ _ _ heq => absurd heq hslash
    · exact fun _ _ heq => absurd heq hslash

/-- The characters of a text as they are written. -/
def written (e : Escaping) (cs : List Char) : List Char :=
  cs.flatMap fun c => (escapeChar e c).toList

theorem pieces?_written (rules : TextRules) (e : Escaping) (cs rest : List Char) :
    ∃ ps, List.Forall₂ Piece.Stands cs ps ∧
      pieces? rules (written e cs ++ '"' :: rest) = some (ps, rest) := by
  induction cs with
  | nil => exact ⟨[], .nil, by rw [written, List.flatMap_nil, List.nil_append, pieces?]⟩
  | cons c cs ih =>
    obtain ⟨ps, hps, hread⟩ := ih
    obtain ⟨p, hp, hpiece⟩ := (written_escapeChar e c).pieces? rules
    refine ⟨p :: ps, .cons hp hps, ?_⟩
    rw [written, List.flatMap_cons, List.append_assoc, hpiece, ← written, hread]
    rfl

/-- What a character comes back as. -/
def spread (rules : TextRules) (c : Char) : List Char :=
  if c == Text.replacement && rules.tripled then [c, c, c] else [c]

theorem spread_of_ne (h : c ≠ Text.replacement) : spread rules c = [c] := by
  rw [spread, beq_false_of_ne h, Bool.false_and, if_neg Bool.false_ne_true]

/-- A unit that is no half of a pair stands for its character, whatever follows. -/
theorem joined_some {n : Nat} (hlow : n < 0xD800) (ps : List Piece) :
    joined rules (some n) ps = Char.ofNat n :: joined rules none ps := by
  have hunit : ofUnit n = Char.ofNat n := if_neg fun h => Nat.not_le.mpr hlow h.1
  have hpair : ∀ m, ofPair? n m = none := fun m => if_neg fun h => Nat.not_le.mpr hlow h.1
  cases ps with
  | nil => rw [joined, joined, hunit]
  | cons p ps =>
    cases p with
    | unit m => simp only [joined, hpair, hunit]
    | escaped c =>
      rw [joined, joined, ← hunit]
      rfl
    | literal c =>
      rw [joined, joined, ← hunit]
      rfl

theorem joined_of_stands (h : List.Forall₂ Piece.Stands cs ps) :
    joined rules none ps = cs.flatMap (spread rules) := by
  induction h with
  | nil => rfl
  | @cons c p cs ps hp _ ih =>
    rw [List.flatMap_cons, ← ih]
    cases hp with
    | unit hlow hmark => rw [joined, joined_some hlow, spread_of_ne hmark, Char.ofNat_toNat]; rfl
    | escaped hmark => rw [joined, spread_of_ne hmark]; rfl
    | literal => rw [joined]; rfl

/-- A text that has been written comes back, with the marks spread as the rules have it. -/
theorem text?_written (rules : TextRules) (e : Escaping) (cs rest : List Char) :
    text? rules (written e cs ++ '"' :: rest) = some (cs.flatMap (spread rules), rest) := by
  obtain ⟨ps, hps, hread⟩ := pieces?_written rules e cs rest
  rw [text?, hread, ← joined_of_stands hps]
  rfl

theorem toList_quote (e : Escaping) (s : String) :
    (quote e s).toList = '"' :: (written e s.toList ++ ['"']) := by
  rw [quote, String.toList_append, String.toList_append, String.toList_join, List.flatMap_map]
  rfl

theorem Written.pastText (h : Written c cs) (rest : List Char) :
    pastText (cs ++ rest) = (pastText rest).map fun (raw, rest) => (cs ++ raw, rest) := by
  have hplain : ∀ {ds : List Char} (rest : List Char), '"' ∉ ds → '\\' ∉ ds →
      Json.pastText (ds ++ rest) = (Json.pastText rest).map fun (raw, rest) => (ds ++ raw, rest) := by
    intro ds rest hquote hslash
    induction ds with
    | nil => cases hrest : Json.pastText rest <;> simp [hrest]
    | cons d ds ih =>
      have hds := ih (List.not_mem_of_not_mem_cons hquote) (List.not_mem_of_not_mem_cons hslash)
      rw [List.cons_append, Json.pastText, hds, Option.map_map]
      · rfl
      · exact (List.ne_of_not_mem_cons hquote).symm
      · exact fun _ _ heq => absurd heq (List.ne_of_not_mem_cons hslash).symm
  cases h with
  | escaped =>
    rw [List.cons_append, List.cons_append, List.nil_append, Json.pastText]
    rfl
  | coded hcode =>
    obtain ⟨-, -, -, hquote, hslash, -⟩ := coded_digits _ hcode
    rw [String.toList_append]
    change Json.pastText ('\\' :: 'u' :: ((Text.hex 4 c.toNat).toList ++ rest)) = _
    rw [Json.pastText, hplain _ hquote hslash, Option.map_map]
    rfl
  | literal _ hquote hslash => exact hplain rest (by simpa using hquote.symm) (by simpa using hslash.symm)

theorem pastText_written (e : Escaping) (cs rest : List Char) :
    pastText (written e cs ++ '"' :: rest) = some (written e cs ++ ['"'], rest) := by
  induction cs with
  | nil => rw [written, List.flatMap_nil, List.nil_append, pastText]; rfl
  | cons c cs ih =>
    rw [written, List.flatMap_cons, ← written, List.append_assoc, (written_escapeChar e c).pastText,
      ih, Option.map_some, List.append_assoc]

theorem unquote?_quote (e : Escaping) (s : String) : unquote? (quote e s).toList = some s.toList := by
  rw [toList_quote, unquote?, text?_written]
  have hspread : s.toList.flatMap (spread { apostrophes := true, controls := false }) = s.toList := by
    have hsingle : spread { apostrophes := true, controls := false } = fun c => [c] := by
      funext c
      rw [spread, Bool.and_false, if_neg Bool.false_ne_true]
    rw [hsingle, List.flatMap_singleton']
  rw [hspread]

-- ---------------------------------------------------------------------------
-- Numbers
-- ---------------------------------------------------------------------------

/-- The digits of a number but zero do not start with a zero. -/
theorem toDigits_eq_cons {n : Nat} (hn : 0 < n) :
    ∃ c cs, Nat.toDigits 10 n = c :: cs ∧ c ≠ '0' := by
  induction n using Nat.strongRecOn with
  | ind n ih =>
    by_cases hlow : n < 10
    · refine ⟨n.digitChar, [], Nat.toDigits_of_lt_base hlow, ?_⟩
      have hdigit : ∀ n < 10, 0 < n → n.digitChar ≠ '0' := by decide
      exact hdigit n hlow hn
    · have hhigh : 0 < n / 10 := Nat.div_pos (Nat.le_of_not_lt hlow) (by decide)
      obtain ⟨c, cs, hdigits, hc⟩ := ih (n / 10) (Nat.div_lt_self hn (by decide)) hhigh
      have hsplit := Nat.toDigits_append_toDigits (by decide : 1 < 10) hhigh
        (Nat.mod_lt n (by decide))
      rw [Nat.div_add_mod, hdigits] at hsplit
      exact ⟨c, cs ++ Nat.toDigits 10 (n % 10), hsplit.symm, hc⟩

/-- Whether a number that stands before a text ends there. -/
def Ends (rest : List Char) : Prop :=
  ∀ c ∈ rest.head?, c.isDigit = false

theorem span_toDigits (hends : Ends rest) (n : Nat) :
    (Nat.toDigits 10 n ++ rest).span Char.isDigit = (Nat.toDigits 10 n, rest) := by
  have hdigits : ∀ c ∈ Nat.toDigits 10 n, c.isDigit = true := fun c hc =>
    Nat.isDigit_of_mem_toDigits (by decide) (by decide) hc
  have hrest : rest.takeWhile Char.isDigit = [] ∧ rest.dropWhile Char.isDigit = rest := by
    cases rest with
    | nil => exact ⟨rfl, rfl⟩
    | cons c rest =>
      have hc : ¬ c.isDigit = true := by
        rw [hends c rfl]
        exact Bool.false_ne_true
      exact ⟨List.takeWhile_cons_of_neg hc, List.dropWhile_cons_of_neg hc⟩
  rw [List.span_eq_takeWhile_dropWhile, List.takeWhile_append_of_pos hdigits,
    List.dropWhile_append_of_pos hdigits, hrest.1, hrest.2, List.append_nil]

theorem word64?_toDigits (n : Nat) (negative : Bool) : word64? negative (Nat.toDigits 10 n) =
    if n < 10 ^ 19 then some (Word64.wrap (if negative then -n else n)) else none := by
  have hnumber : numberOf (Nat.toDigits 10 n) = n := by
    have hfold := Nat.ofDigitChars_toDigits (n := n) (by decide : 1 < 10) (Nat.le_refl 10)
    simpa only [numberOf, Nat.ofDigitChars, Nat.mul_comm] using hfold
  have hlength : (Nat.toDigits 10 n).length ≤ 19 ↔ n < 10 ^ 19 :=
    Nat.length_toDigits_le_iff (by decide) (by decide)
  have hlong : ((Nat.toDigits 10 n).isEmpty || 19 < (Nat.toDigits 10 n).length) = true ↔ ¬ n < 10 ^ 19 := by
    rw [Bool.or_eq_true, List.isEmpty_iff, decide_eq_true_iff, ← hlength, Nat.not_le]
    exact or_iff_right Nat.toDigits_ne_nil
  rw [word64?, hnumber, if_congr hlong rfl rfl, ite_not]

/-- What a number comes back as. It has to have less than twenty digits. -/
def number? (n : Int) : Option Int :=
  if n.natAbs < 10 ^ 19 then some (Word64.wrap n) else none

theorem number?_eq_some_iff {n : Int} : number? n = some n ↔ Word64.Fits n := by
  constructor
  · intro h
    rw [number?, Option.ite_none_right_eq_some, Option.some.injEq] at h
    exact h.2 ▸ Word64.fits_wrap n
  · intro h
    have hsmall : n.natAbs < 10 ^ 19 := by
      obtain ⟨hlow, hhigh⟩ := h
      simp only [Word64.limit] at hlow hhigh
      omega
    rw [number?, if_pos hsmall, Word64.wrap_of_mem_range h.1 h.2]

theorem int64?_toString (n : Int) (hends : Ends rest) :
    int64? ((toString n).toList ++ rest) = (number? n).map (·, rest) := by
  cases n with
  | ofNat n =>
    have htext : (toString (Int.ofNat n)).toList = Nat.toDigits 10 n := by
      simp [toString, Int.repr, Nat.repr]
    rw [htext]
    obtain rfl | hpos := Nat.eq_zero_or_pos n
    · rfl
    obtain ⟨c, cs, hdigits, hc⟩ := toDigits_eq_cons hpos
    have hminus : c ≠ '-' := by
      rintro rfl
      have hdigit : '-'.isDigit = true :=
        Nat.isDigit_of_mem_toDigits (by decide) (by decide) (hdigits ▸ List.mem_cons_self)
      exact absurd hdigit (by decide)
    have hspan := span_toDigits hends n
    have hword := word64?_toDigits n false
    rw [hdigits] at hspan hword ⊢
    rw [List.cons_append] at hspan ⊢
    rw [int64?, hspan]
    · dsimp only
      rw [hword]
      rfl
    · exact fun _ heq => hminus (List.cons.inj heq).1
    · exact fun _ heq => hc (List.cons.inj heq).1
  | negSucc n =>
    have htext : (toString (Int.negSucc n)).toList = '-' :: Nat.toDigits 10 (n + 1) := by
      simp [toString, Int.repr, Nat.repr]
    rw [htext, List.cons_append, int64?, span_toDigits hends]
    dsimp only
    rw [word64?_toDigits]
    rfl

-- ---------------------------------------------------------------------------
-- Printed values
-- ---------------------------------------------------------------------------

mutual

/-- How deep lists and objects are nested in a value. -/
def depth : Json → Nat
  | list items => depthAll items + 1
  | object members => depthMembers members + 1
  | _ => 0

def depthAll : List Json → Nat
  | [] => 0
  | v :: vs => max (depth v) (depthAll vs)

def depthMembers : List (String × Json) → Nat
  | [] => 0
  | (_, v) :: rest => max (depth v) (depthMembers rest)

end

theorem depthAll_cons_le {v : Json} {vs : List Json} {n : Nat} :
    depthAll (v :: vs) ≤ n ↔ v.depth ≤ n ∧ depthAll vs ≤ n := by
  rw [depthAll, Nat.max_le]

theorem depthMembers_cons_le {m : String × Json} {ms : List (String × Json)} {n : Nat} :
    depthMembers (m :: ms) ≤ n ↔ m.2.depth ≤ n ∧ depthMembers ms ≤ n := by
  rw [depthMembers, Nat.max_le]

theorem depth_lt_of_mem_list {v : Json} {vs : List Json} (hv : v ∈ vs) : v.depth < (list vs).depth := by
  rw [depth, Nat.lt_succ_iff]
  induction vs with
  | nil => exact absurd hv List.not_mem_nil
  | cons u us ih =>
    rw [depthAll]
    obtain rfl | hv := List.mem_cons.mp hv
    · exact Nat.le_max_left ..
    · exact Nat.le_trans (ih hv) (Nat.le_max_right ..)

theorem depth_lt_of_mem_object {m : String × Json} {ms : List (String × Json)} (hm : m ∈ ms) :
    m.2.depth < (object ms).depth := by
  rw [depth, Nat.lt_succ_iff]
  induction ms with
  | nil => exact absurd hm List.not_mem_nil
  | cons n ns ih =>
    rw [depthMembers]
    obtain rfl | hm := List.mem_cons.mp hm
    · exact Nat.le_max_left ..
    · exact Nat.le_trans (ih hm) (Nat.le_max_right ..)

/-- The characters of a value as it is printed at a level. -/
def printed (level : Nat) (v : Json) : List Char :=
  (indented {} level v).toList

def printedMember (level : Nat) (m : String × Json) : List Char :=
  (quote {} m.1).toList ++ ':' :: ' ' :: printed level m.2

/-- What is printed behind an entry of a block. -/
def printedRest (level : Nat) (stop : Char) (entries : List (List Char)) : List Char :=
  entries.flatMap (fun entry => ',' :: ((newline (level + 1)).toList ++ entry)) ++
    ((newline level).toList ++ [stop])

variable {level : Nat} {s : String} {v : Json} {vs : List Json} {m : String × Json}
  {ms : List (String × Json)}

theorem printed_text : printed level (text s) = '"' :: (written {} s.toList ++ ['"']) := by
  rw [printed, indented, toList_quote]

theorem toList_intercalate_map (nl : String) (entry : String) (entries : List String) :
    (String.intercalate "," ((entry :: entries).map (nl ++ ·))).toList =
      nl.toList ++ (entry.toList ++ (entries.map String.toList).flatMap fun e => ',' :: (nl.toList ++ e)) := by
  rw [String.toList_intercalate]
  induction entries generalizing entry with
  | nil => simp
  | cons next entries ih =>
    rw [List.map_cons, List.map_cons, List.map_cons, List.map_cons, List.intercalate_cons_cons,
      ← List.map_cons, ← List.map_cons, ih]
    simp

theorem toList_block (start stop : Char) (entry : String) (entries : List String) :
    (block level (String.singleton start) (String.singleton stop) (entry :: entries)).toList =
      start :: ((newline (level + 1)).toList ++ (entry.toList ++
        printedRest level stop (entries.map String.toList))) := by
  rw [block, if_neg (by simp)]
  simp only [String.toList_append, String.toList_singleton, toList_intercalate_map, printedRest,
    List.append_assoc, List.cons_append, List.nil_append]

theorem indentedAll_eq (level : Nat) (vs : List Json) :
    indentedAll {} level vs = vs.map (indented {} level) := by
  induction vs with
  | nil => rfl
  | cons v vs ih => rw [indentedAll, ih, List.map_cons]

theorem indentedMembers_eq (level : Nat) (ms : List (String × Json)) :
    (indentedMembers {} level ms).map String.toList = ms.map (printedMember level) := by
  induction ms with
  | nil => rfl
  | cons m ms ih =>
    rw [indentedMembers, List.map_cons, ih, List.map_cons]
    simp [printedMember, printed]

theorem printed_list_nil : printed level (list []) = ['[', ']'] := by
  simp [printed, indented, indentedAll, block]

theorem printed_list_cons : printed level (list (v :: vs)) =
    '[' :: ((newline (level + 1)).toList ++ (printed (level + 1) v ++
      printedRest level ']' (vs.map (printed (level + 1))))) := by
  rw [printed, indented, indentedAll_eq, List.map_cons]
  refine (toList_block '[' ']' _ _).trans ?_
  rw [List.map_map]
  rfl

theorem printed_object_nil : printed level (object []) = ['\x7b', '\x7d'] := by
  simp [printed, indented, indentedMembers, block]

theorem printed_object_cons : printed level (object (m :: ms)) =
    '\x7b' :: ((newline (level + 1)).toList ++ (printedMember (level + 1) m ++
      printedRest level '\x7d' (ms.map (printedMember (level + 1))))) := by
  have hentries := indentedMembers_eq (level + 1) (m :: ms)
  rw [printed, indented]
  cases hms : indentedMembers {} (level + 1) (m :: ms) with
  | nil => simp [hms] at hentries
  | cons entry entries =>
    rw [hms, List.map_cons, List.map_cons, List.cons.injEq] at hentries
    refine (toList_block '\x7b' '\x7d' _ _).trans ?_
    rw [hentries.1, hentries.2]

theorem isBlank_newline : ∀ c ∈ (newline level).toList, isBlank c = true := by
  intro c hc
  simp only [newline, String.toList_append, String.toList_ofList, List.mem_append,
    List.mem_replicate] at hc
  obtain hc | ⟨-, rfl⟩ := hc
  · obtain rfl : c = '\n' := by simpa using hc
    rfl
  · rfl

theorem skipBlanks_append (hblanks : ∀ c ∈ cs, isBlank c = true) :
    skipBlanks (cs ++ rest) = skipBlanks rest :=
  List.dropWhile_append_of_pos hblanks

theorem skipBlanks_cons (hc : isBlank c = false) : skipBlanks (c :: rest) = c :: rest :=
  List.dropWhile_cons_of_neg (Bool.eq_false_iff.mp hc)

theorem skipBlanks_newline (level : Nat) (rest : List Char) :
    skipBlanks ((newline level).toList ++ rest) = skipBlanks rest :=
  skipBlanks_append isBlank_newline

/-- What is printed behind an entry does not go on with a digit. -/
theorem ends_printedRest {stop : Char} {entries : List (List Char)} :
    Ends (printedRest level stop entries ++ rest) := by
  cases entries with
  | nil =>
    simp only [printedRest, newline, Ends, List.flatMap_nil, List.nil_append, String.toList_append]
    rintro c ⟨⟩
    rfl
  | cons =>
    rintro c ⟨⟩
    rfl

end Json

end Schemata

-- ---------------------------------------------------------------------------
-- Lengths
-- ---------------------------------------------------------------------------

namespace Schemata.Json

variable {level : Nat} {v : Json}

theorem length_le_printedRest (level : Nat) (stop : Char) (entries : List (List Char)) :
    entries.length ≤ (printedRest level stop entries).length ∧
      ∀ entry ∈ entries, entry.length ≤ (printedRest level stop entries).length := by
  induction entries with
  | nil => exact ⟨Nat.zero_le _, fun _ h => absurd h List.not_mem_nil⟩
  | cons entry entries ih =>
    have hlength : (printedRest level stop (entry :: entries)).length =
        1 + (newline (level + 1)).toList.length + entry.length +
          (printedRest level stop entries).length := by
      simp only [printedRest, List.flatMap_cons, List.length_append, List.length_cons]
      omega
    refine ⟨by rw [List.length_cons]; omega, fun e he => ?_⟩
    obtain rfl | he := List.mem_cons.mp he
    · omega
    · have hle := ih.2 e he
      omega

/-- The length of an object bounds the number and the lengths of its members. -/
theorem length_lt_printed_object {m : String × Json} {ms : List (String × Json)} {size : Nat}
    (hsize : (printed level (.object (m :: ms))).length ≤ size) : ms.length < size ∧
      ∀ m' ∈ m :: ms, (printed (level + 1) m'.2).length < size := by
  obtain ⟨hcount, hlengths⟩ := length_le_printedRest level '\x7d'
    (ms.map (printedMember (level + 1)))
  have hmember : ∀ m : String × Json,
      (printed (level + 1) m.2).length ≤ (printedMember (level + 1) m).length := by
    intro m
    simp only [printedMember, List.length_append, List.length_cons]
    omega
  rw [printed_object_cons] at hsize
  simp only [List.length_cons, List.length_append] at hsize
  rw [List.length_map] at hcount
  refine ⟨by omega, fun m' hm' => ?_⟩
  have hle := hmember m'
  obtain rfl | hm' := List.mem_cons.mp hm'
  · omega
  · have hentry := hlengths _ (List.mem_map_of_mem hm')
    omega

/-- The length of a list bounds the number and the lengths of its items. -/
theorem length_lt_printed_list {vs : List Json} {size : Nat}
    (hsize : (printed level (.list (v :: vs))).length ≤ size) : vs.length < size ∧
      ∀ v' ∈ v :: vs, (printed (level + 1) v').length < size := by
  obtain ⟨hcount, hlengths⟩ := length_le_printedRest level ']'
    (vs.map (printed (level + 1)))
  rw [printed_list_cons] at hsize
  simp only [List.length_cons, List.length_append] at hsize
  rw [List.length_map] at hcount
  refine ⟨by omega, fun v' hv' => ?_⟩
  obtain rfl | hv' := List.mem_cons.mp hv'
  · omega
  · have hentry := hlengths _ (List.mem_map_of_mem hv')
    omega

mutual

/-- Every level of a value is printed with a bracket at least. -/
theorem depth_le_length : (v : Json) → (level : Nat) → v.depth ≤ (printed level v).length
  | .list [], level => by simp [depth, depthAll, printed_list_nil]
  | .list (v :: vs), level => depthAll_lt_length (v :: vs) (level + 1) (length_lt_printed_list (Nat.le_refl _)).2
      (by simp [printed_list_cons])
  | .object [], level => by simp [depth, depthMembers, printed_object_nil]
  | .object (m :: ms), level => depthMembers_lt_length (m :: ms) (level + 1)
      (length_lt_printed_object (Nat.le_refl _)).2 (by simp [printed_object_cons])
  | .null, _ | .bool _, _ | .int _, _ | .decimal _, _ | .text _, _ => Nat.zero_le _

theorem depthAll_lt_length : (vs : List Json) → (level : Nat) → {n : Nat} →
    (∀ v ∈ vs, (printed level v).length < n) → 0 < n → depthAll vs < n
  | [], _, _, _, hn => hn
  | v :: vs, level, _, h, hn => Nat.max_lt.mpr
      ⟨Nat.lt_of_le_of_lt (depth_le_length v level) (h v List.mem_cons_self),
        depthAll_lt_length vs level (fun v hv => h v (List.mem_cons_of_mem _ hv)) hn⟩

theorem depthMembers_lt_length : (ms : List (String × Json)) → (level : Nat) → {n : Nat} →
    (∀ m ∈ ms, (printed level m.2).length < n) → 0 < n → depthMembers ms < n
  | [], _, _, _, hn => hn
  | (_, v) :: ms, level, _, h, hn => Nat.max_lt.mpr
      ⟨Nat.lt_of_le_of_lt (depth_le_length v level) (h _ List.mem_cons_self),
        depthMembers_lt_length ms level (fun m hm => h m (List.mem_cons_of_mem _ hm)) hn⟩

end

-- ---------------------------------------------------------------------------
-- Ends of texts
-- ---------------------------------------------------------------------------

/-- The character that ends a text for the reader. -/
def nul : Char :=
  Char.ofNat 0

theorem Written.nul_not_mem {c : Char} {cs : List Char} (h : Written c cs) : nul ∉ cs := by
  cases h with
  | @escaped l hescape =>
    have hl : nul ≠ l := by
      rintro rfl
      exact absurd (hescape {}) nofun
    simp only [List.mem_cons, List.not_mem_nil, or_false, not_or]
    exact ⟨by decide, hl⟩
  | coded hcode =>
    have hall : ∀ n ∈ List.range 0x20 ++ [0x26, 0x3C, 0x3E, 0x2028, 0x2029],
        nul ∉ ("\\u" ++ Text.hex 4 n).toList := by decide +kernel
    exact hall _ hcode
  | literal hplain =>
    intro hmem
    obtain rfl := List.mem_singleton.mp hmem
    exact absurd hplain (by decide)

theorem nul_not_mem_quote (s : String) : nul ∉ (quote {} s).toList := by
  rw [toList_quote, List.mem_cons, List.mem_append, List.mem_singleton, written, List.mem_flatMap]
  rintro (h | ⟨c, -, hc⟩ | h)
  · exact absurd h (by decide)
  · exact (written_escapeChar {} c).nul_not_mem hc
  · exact absurd h (by decide)

theorem nul_not_mem_newline (level : Nat) : nul ∉ (newline level).toList :=
  fun h => absurd (isBlank_newline nul h) (by decide)

theorem nul_not_mem_printedRest {stop : Char} (hstop : nul ≠ stop) {entries : List (List Char)}
    (h : ∀ entry ∈ entries, nul ∉ entry) : nul ∉ printedRest level stop entries := by
  rw [printedRest, List.mem_append, List.mem_append, List.mem_flatMap, List.mem_singleton]
  rintro (⟨entry, hentry, hmem⟩ | hmem | hmem)
  · rw [List.mem_cons, List.mem_append] at hmem
    obtain hmem | hmem | hmem := hmem
    · exact absurd hmem (by decide)
    · exact nul_not_mem_newline _ hmem
    · exact h entry hentry hmem
  · exact nul_not_mem_newline _ hmem
  · exact hstop hmem

/-- A value that is printed without the character that ends a text. -/
def Clear (v : Json) : Prop :=
  ∀ level, nul ∉ printed level v

theorem clear_text (s : String) : Clear (.text s) :=
  fun _ => nul_not_mem_quote s

theorem clear_true : Clear (.bool true) := by
  intro level
  rw [printed, indented, if_pos rfl]
  decide

theorem clear_int (n : Int) : Clear (.int n) := by
  have hdigits : ∀ n : Nat, nul ∉ Nat.toDigits 10 n := fun n h =>
    absurd (Nat.isDigit_of_mem_toDigits (by decide) (by decide) h) (by decide)
  intro level
  rw [printed, indented]
  cases n with
  | ofNat n => simpa [toString, Int.repr, Nat.repr] using hdigits n
  | negSucc n =>
    have hminus : nul ≠ '-' := by decide
    simpa [toString, Int.repr, Nat.repr, hminus] using hdigits (n + 1)

theorem clear_list {vs : List Json} (h : ∀ v ∈ vs, Clear v) : Clear (.list vs) := by
  intro level
  cases vs with
  | nil =>
    rw [printed_list_nil]
    decide
  | cons v vs =>
    have hrest : nul ∉ printedRest level ']' (vs.map (printed (level + 1))) := by
      refine nul_not_mem_printedRest (by decide) (List.forall_mem_map.mpr fun v hv => ?_)
      exact h v (List.mem_cons_of_mem _ hv) _
    rw [printed_list_cons, List.mem_cons, List.mem_append, List.mem_append, not_or, not_or, not_or]
    exact ⟨by decide, nul_not_mem_newline _, h v List.mem_cons_self _, hrest⟩

theorem clear_object {ms : List (String × Json)} (h : ∀ m ∈ ms, Clear m.2) : Clear (.object ms) := by
  have hmember : ∀ m ∈ ms, ∀ level, nul ∉ printedMember level m := by
    intro m hm level
    rw [printedMember, List.mem_append, List.mem_cons, List.mem_cons, not_or, not_or, not_or]
    exact ⟨nul_not_mem_quote _, by decide, by decide, h m hm level⟩
  intro level
  cases ms with
  | nil =>
    rw [printed_object_nil]
    decide
  | cons m ms =>
    have hrest : nul ∉ printedRest level '\x7d' (ms.map (printedMember (level + 1))) := by
      refine nul_not_mem_printedRest (by decide) (List.forall_mem_map.mpr fun m hm => ?_)
      exact hmember m (List.mem_cons_of_mem _ hm) _
    rw [printed_object_cons, List.mem_cons, List.mem_append, List.mem_append, not_or, not_or, not_or]
    exact ⟨by decide, nul_not_mem_newline _, hmember m List.mem_cons_self _, hrest⟩

end Schemata.Json
