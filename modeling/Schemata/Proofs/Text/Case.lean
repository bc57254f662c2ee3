import Schemata.Name.Key

/-!
# Small letters

A small letter is its own small letter, and a character is a separator exactly if its small letter
is one. So the key of a name is also that of the name in small letters. Beyond ASCII both are facts
about the tables, which are checked by rows: a row of `lowerRanges` leads from one range of letters
into another, or past all letters and digits, and to nothing that is itself on a row. The few rows
that do not are checked point by point.
-/

namespace Schemata.Text

/-- A row of `lowerRanges`: the first and the last capital, their step and the distance. -/
abbrev CaseRow := Nat × Nat × Nat × Int

/-- Whether a code point lies on the row. -/
def CaseRow.Holds : CaseRow → Nat → Prop
  | (lo, hi, step, _), n => lo ≤ n ∧ n ≤ hi ∧ (n - lo) % step = 0

/-- Where a row takes a code point. -/
def CaseRow.image : CaseRow → Nat → Nat
  | (_, _, _, delta), n => (n + delta).toNat

-- ---------------------------------------------------------------------------
-- Checks of a row
-- ---------------------------------------------------------------------------

/-- No image of the first row lies on the second: they are apart, or they interleave. -/
def misses (row row' : CaseRow) : Bool :=
  let (lo, hi, step, _) := row
  let (lo', hi', step', _) := row'
  (row.image hi).blt lo' || hi'.blt (row.image lo) ||
    ((lo.beq hi || (step % step').beq 0) && Nat.blt 0 ((row.image lo - lo') % step'))

/-- Whether an interval lies in one range of a table. -/
def within (table : List (Nat × Nat)) (lo hi : Nat) : Bool :=
  table.any fun range => range.1.ble lo && hi.ble range.2

/-- Whether an interval meets no range of a table. -/
def outside (table : List (Nat × Nat)) (lo hi : Nat) : Bool :=
  table.all fun range => hi.blt range.1 || range.2.blt lo

/-- Whether an interval beyond ASCII is one of letters. -/
def lettersOnly (lo hi : Nat) : Bool :=
  Nat.ble 0x80 lo && within letterRanges lo hi

/-- Whether an interval beyond ASCII has neither letters nor digits. -/
def separatorsOnly (lo hi : Nat) : Bool :=
  Nat.ble 0x80 lo && outside letterRanges lo hi && outside digitRanges lo hi

/-- Whether an interval has no surrogates. -/
def charsOnly (lo hi : Nat) : Bool :=
  hi.blt 0xD800 || Nat.blt 0xDFFF lo && hi.blt 0x110000

/-- Whether a row takes its range to characters of the same class, and to none that is on a row. -/
def soundRow (row : CaseRow) : Bool :=
  let (lo, hi, _, _) := row
  let (lo', hi') := (row.image lo, row.image hi)
  lowerRanges.all (misses row) &&
    (lettersOnly lo hi && lettersOnly lo' hi' || separatorsOnly lo hi && separatorsOnly lo' hi')

/-- Whether a character is its own small letter and of the class of another. -/
def soundPoint (small c : Char) : Bool :=
  lowerChar small == small && Name.isSeparator small == Name.isSeparator c

/-- The check of a row point by point. -/
def soundPoints (row : CaseRow) : Bool :=
  let (lo, hi, step, _) := row
  (List.range ((hi - lo) / step + 1)).all fun k =>
    soundPoint (Char.ofNat (row.image (lo + k * step))) (Char.ofNat (lo + k * step))

/-- Every row leads to characters, and to none before the small letters of ASCII. -/
theorem charsOnly_image : ∀ row : CaseRow, row ∈ lowerRanges →
    charsOnly (row.image row.1) (row.image row.2.1) ∧ 0x61 ≤ row.image row.1 := by
  decide +kernel

theorem soundRow_or_soundPoints : ∀ row ∈ lowerRanges, soundRow row || soundPoints row := by
  decide +kernel

-- ---------------------------------------------------------------------------
-- What the checks say
-- ---------------------------------------------------------------------------

theorem isSeparator_of_lettersOnly {lo hi : Nat} {c : Char} (h : lettersOnly lo hi) (hlo : lo ≤ c.toNat)
    (hhi : c.toNat ≤ hi) : Name.isSeparator c = false := by
  simp only [lettersOnly, within, Bool.and_eq_true, Nat.ble_eq, List.any_eq_true] at h
  obtain ⟨hascii, range, hmem, hfirst, hlast⟩ := h
  have hin : inRanges letterRanges c.toNat := by
    refine List.any_eq_true.mpr ⟨range, hmem, ?_⟩
    simp only [Bool.and_eq_true, decide_eq_true_eq]
    omega
  rw [Name.isSeparator, isLetter, if_neg (by omega), hin]
  rfl

theorem inRanges_of_outside {table : List (Nat × Nat)} {lo hi n : Nat} (h : outside table lo hi) (hlo : lo ≤ n)
    (hhi : n ≤ hi) : inRanges table n = false := by
  refine List.any_eq_false.mpr fun range hmem => ?_
  have hapart := List.all_eq_true.mp h range hmem
  simp only [Bool.or_eq_true, Nat.blt_eq] at hapart
  simp only [Bool.and_eq_true, decide_eq_true_eq]
  omega

theorem isSeparator_of_separatorsOnly {lo hi : Nat} {c : Char} (h : separatorsOnly lo hi)
    (hlo : lo ≤ c.toNat) (hhi : c.toNat ≤ hi) : Name.isSeparator c = true := by
  simp only [separatorsOnly, Bool.and_eq_true, Nat.ble_eq] at h
  obtain ⟨⟨hascii, hletter⟩, hdigit⟩ := h
  rw [Name.isSeparator, isLetter, isDecimal, if_neg (by omega), if_neg (by omega),
    inRanges_of_outside hletter hlo hhi, inRanges_of_outside hdigit hlo hhi]
  rfl

theorem toNat_ofNat_of_charsOnly {lo hi n : Nat} (h : charsOnly lo hi) (hlo : lo ≤ n) (hhi : n ≤ hi) :
    (Char.ofNat n).toNat = n := by
  simp only [charsOnly, Bool.or_eq_true, Bool.and_eq_true, Nat.blt_eq] at h
  have hvalid : n.isValidChar := by unfold Nat.isValidChar; omega
  rw [Char.ofNat, dif_pos hvalid]
  rfl

/-- Images keep their order. -/
theorem CaseRow.image_bounds {row : CaseRow} {n : Nat} (h : row.Holds n) :
    row.image row.1 ≤ row.image n ∧ row.image n ≤ row.image row.2.1 := by
  obtain ⟨lo, hi, step, delta⟩ := row
  obtain ⟨hlo, hhi, -⟩ := h
  simp only [image]
  omega

theorem toNat_ofNat_image {row : CaseRow} (hmem : row ∈ lowerRanges) {n : Nat} (h : row.Holds n) :
    (Char.ofNat (row.image n)).toNat = row.image n :=
  toNat_ofNat_of_charsOnly (charsOnly_image row hmem).1 (CaseRow.image_bounds h).1 (CaseRow.image_bounds h).2

theorem not_holds_image_of_misses {row row' : CaseRow} {n : Nat} (hmiss : misses row row')
    (h : row.Holds n) : ¬ row'.Holds (row.image n) := by
  obtain ⟨hfirst, hlast⟩ := CaseRow.image_bounds h
  obtain ⟨lo, hi, step, delta⟩ := row
  obtain ⟨lo', hi', step', delta'⟩ := row'
  obtain ⟨hlo, hhi, hstep⟩ := h
  rintro ⟨hlo', hhi', hstep'⟩
  simp only [misses, Bool.or_eq_true, Bool.and_eq_true, Nat.blt_eq, Nat.beq_eq] at hmiss
  dsimp only at hfirst hlast
  obtain hapart | ⟨hsteps, hoff⟩ := hmiss
  · omega
  -- the distance from the first capital is a multiple of both steps, that of its image is not
  have hshift : CaseRow.image (lo, hi, step, delta) n - lo' =
      (CaseRow.image (lo, hi, step, delta) lo - lo') + (n - lo) := by
    have : CaseRow.image (lo, hi, step, delta) lo - lo' ≠ 0 := by
      intro hzero
      rw [hzero, Nat.zero_mod] at hoff
      exact Nat.lt_irrefl 0 hoff
    simp only [CaseRow.image] at this ⊢
    omega
  have hdvd : step' ∣ n - lo := by
    obtain rfl | hsteps := hsteps
    · rw [Nat.le_antisymm hhi hlo, Nat.sub_self]
      exact Nat.dvd_zero _
    · exact Nat.dvd_trans (Nat.dvd_of_mod_eq_zero hsteps) (Nat.dvd_of_mod_eq_zero hstep)
  have hsum := Nat.dvd_of_mod_eq_zero hstep'
  rw [hshift] at hsum
  have := Nat.mod_eq_zero_of_dvd ((Nat.dvd_add_left hdvd).mp hsum)
  omega

theorem soundPoint_of_soundPoints {row : CaseRow} {n : Nat} (hsound : soundPoints row) (h : row.Holds n) :
    soundPoint (Char.ofNat (row.image n)) (Char.ofNat n) := by
  obtain ⟨lo, hi, step, delta⟩ := row
  obtain ⟨hlo, hhi, hstep⟩ := h
  have hpoint : lo + (n - lo) / step * step = n := by
    rw [Nat.div_mul_cancel (Nat.dvd_of_mod_eq_zero hstep)]
    omega
  have hk : (n - lo) / step < (hi - lo) / step + 1 :=
    Nat.lt_succ_of_le (Nat.div_le_div_right (by omega))
  have hall := List.all_eq_true.mp hsound _ (List.mem_range.mpr hk)
  rwa [hpoint] at hall

-- ---------------------------------------------------------------------------
-- Small letters
-- ---------------------------------------------------------------------------

/-- A character on no row is its own small letter; else its small letter is its image on a row. -/
theorem lowerChar_cases {c : Char} (hascii : 0x80 ≤ c.toNat) :
    (∀ row : CaseRow, row ∈ lowerRanges → ¬ row.Holds c.toNat) ∧ lowerChar c = c ∨
      ∃ row : CaseRow, row ∈ lowerRanges ∧ row.Holds c.toNat ∧
        lowerChar c = Char.ofNat (row.image c.toNat) := by
  rw [lowerChar, if_neg (by omega)]
  split
  next lo hi step delta hfind =>
    have hrow := List.find?_some hfind
    simp only [Bool.and_eq_true, decide_eq_true_eq, beq_iff_eq] at hrow
    exact .inr ⟨(lo, hi, step, delta), List.mem_of_find?_eq_some hfind, ⟨hrow.1.1, hrow.1.2, hrow.2⟩, rfl⟩
  next hnone =>
    refine .inl ⟨?_, rfl⟩
    rintro ⟨lo, hi, step, delta⟩ hmem ⟨hlo, hhi, hstep⟩
    have hrow := List.find?_eq_none.mp hnone _ hmem
    simp [hlo, hhi, hstep] at hrow

theorem soundPoint_of_soundRow {row : CaseRow} (hmem : row ∈ lowerRanges) (hsound : soundRow row) {c : Char}
    (h : row.Holds c.toNat) : soundPoint (Char.ofNat (row.image c.toNat)) c := by
  have htoNat := toNat_ofNat_image hmem h
  obtain ⟨hfirst, hlast⟩ := CaseRow.image_bounds h
  have hrow := h
  obtain ⟨lo, hi, step, delta⟩ := row
  obtain ⟨hlo, hhi, -⟩ := h
  dsimp only at hfirst hlast
  simp only [soundRow, Bool.and_eq_true, Bool.or_eq_true, List.all_eq_true] at hsound
  obtain ⟨hmiss, hclass⟩ := hsound
  generalize Char.ofNat (CaseRow.image (lo, hi, step, delta) c.toNat) = small at htoNat ⊢
  rw [← htoNat] at hfirst hlast
  have hkept : lowerChar small = small := by
    have hascii : 0x80 ≤ small.toNat := by
      simp only [lettersOnly, separatorsOnly, Bool.and_eq_true, Nat.ble_eq] at hclass
      omega
    obtain ⟨-, heq⟩ | ⟨row', hmem, hholds, -⟩ := lowerChar_cases hascii
    · exact heq
    · rw [htoNat] at hholds
      exact absurd hholds (not_holds_image_of_misses (hmiss row' hmem) hrow)
  have hsame : Name.isSeparator small = Name.isSeparator c := by
    obtain ⟨hletter, hletter'⟩ | ⟨hother, hother'⟩ := hclass
    · rw [isSeparator_of_lettersOnly hletter hlo hhi, isSeparator_of_lettersOnly hletter' hfirst hlast]
    · rw [isSeparator_of_separatorsOnly hother hlo hhi, isSeparator_of_separatorsOnly hother' hfirst hlast]
  simp [soundPoint, hkept, hsame]

theorem soundPoint_of_ascii : ∀ n < 0x80, soundPoint (lowerChar (Char.ofNat n)) (Char.ofNat n) := by
  decide

/-- The small letter of a character is its own small letter, and of the character's class. -/
theorem soundPoint_lowerChar (c : Char) : soundPoint (lowerChar c) c := by
  by_cases hascii : c.toNat < 0x80
  · have h := soundPoint_of_ascii c.toNat hascii
    rwa [Char.ofNat_toNat] at h
  obtain ⟨-, heq⟩ | ⟨row, hmem, hholds, heq⟩ := lowerChar_cases (Nat.le_of_not_lt hascii)
  · simp [soundPoint, heq]
  rw [heq]
  obtain hsound | hsound := Bool.or_eq_true_iff.mp (soundRow_or_soundPoints row hmem)
  · exact soundPoint_of_soundRow hmem hsound hholds
  · have h := soundPoint_of_soundPoints hsound hholds
    rwa [Char.ofNat_toNat] at h

@[simp] theorem lowerChar_lowerChar (c : Char) : lowerChar (lowerChar c) = lowerChar c := by
  have h := soundPoint_lowerChar c
  simp only [soundPoint, Bool.and_eq_true, beq_iff_eq] at h
  exact h.1

@[simp] theorem isSeparator_lowerChar (c : Char) : Name.isSeparator (lowerChar c) = Name.isSeparator c := by
  have h := soundPoint_lowerChar c
  simp only [soundPoint, Bool.and_eq_true, beq_iff_eq] at h
  exact h.2

/-- There is no digit on a row, and none to which a row leads. -/
theorem no_digit_on_row : ∀ row : CaseRow, row ∈ lowerRanges →
    outside digitRanges row.1 row.2.1 ∧ outside digitRanges (row.image row.1) (row.image row.2.1) := by
  decide +kernel

theorem isDecimal_of_outside {lo hi : Nat} {c : Char} (h : outside digitRanges lo hi) (hlo : lo ≤ c.toNat)
    (hhi : c.toNat ≤ hi) (hletter : 0x61 ≤ c.toNat) : isDecimal c = false := by
  unfold isDecimal
  split
  case isTrue =>
    have hafter : ¬ c.val.toNat ≤ 57 := by
      change ¬ c.toNat ≤ 57
      omega
    simp only [Char.isDigit, Bool.and_eq_false_iff, decide_eq_false_iff_not]
    exact .inr hafter
  case isFalse => exact inRanges_of_outside h hlo hhi

/-- A digit is its own small letter, and no letter has a digit for its small letter. -/
theorem isDecimal_lowerChar_cases (c : Char) :
    lowerChar c = c ∨ isDecimal c = false ∧ isDecimal (lowerChar c) = false := by
  by_cases hascii : c.toNat < 0x80
  · have hall : ∀ n < 0x80, lowerChar (Char.ofNat n) = Char.ofNat n ∨
        isDecimal (Char.ofNat n) = false ∧ isDecimal (lowerChar (Char.ofNat n)) = false := by decide
    have hc := hall c.toNat hascii
    rwa [Char.ofNat_toNat] at hc
  obtain ⟨-, heq⟩ | ⟨row, hmem, hholds, heq⟩ := lowerChar_cases (Nat.le_of_not_lt hascii)
  · exact .inl heq
  · obtain ⟨houtside, houtside'⟩ := no_digit_on_row row hmem
    obtain ⟨hfirst, hlast⟩ := CaseRow.image_bounds hholds
    have hletter := (charsOnly_image row hmem).2
    have htoNat := toNat_ofNat_image hmem hholds
    rw [← htoNat] at hfirst hlast
    rw [heq]
    exact .inr ⟨isDecimal_of_outside houtside hholds.1 hholds.2.1 (by omega),
      isDecimal_of_outside houtside' hfirst hlast (Nat.le_trans hletter hfirst)⟩

@[simp] theorem isDecimal_lowerChar (c : Char) : isDecimal (lowerChar c) = isDecimal c := by
  obtain heq | ⟨hc, hlower⟩ := isDecimal_lowerChar_cases c
  · rw [heq]
  · rw [hc, hlower]

theorem lowerChar_of_isDecimal {c : Char} (hc : isDecimal c) : lowerChar c = c := by
  obtain heq | ⟨hnot, -⟩ := isDecimal_lowerChar_cases c
  · exact heq
  · rw [hc] at hnot
    contradiction

theorem isDecimal_of_isDigit {c : Char} (hc : c.isDigit) : isDecimal c := by
  have hascii : c.toNat < 0x80 := by
    have hle : c.toNat ≤ 57 := by
      simp only [Char.isDigit, Bool.and_eq_true, decide_eq_true_eq] at hc
      exact hc.2
    omega
  rwa [isDecimal, if_pos hascii]

@[simp] theorem isDigit_lowerChar (c : Char) : (lowerChar c).isDigit = c.isDigit := by
  have hnot : ∀ d : Char, isDecimal d = false → d.isDigit = false := by
    intro d hd
    refine Bool.eq_false_iff.mpr fun hdigit => ?_
    rw [isDecimal_of_isDigit hdigit] at hd
    contradiction
  obtain heq | ⟨hc, hlower⟩ := isDecimal_lowerChar_cases c
  · rw [heq]
  · rw [hnot c hc, hnot _ hlower]

/-- Only the underscore has the underscore as its small letter. -/
theorem lowerChar_eq_underscore_iff {c : Char} : lowerChar c = '_' ↔ c = '_' := by
  refine ⟨fun h => ?_, fun h => by rw [h]; decide⟩
  by_cases hascii : c.toNat < 0x80
  · have hall : ∀ n < 0x80, lowerChar (Char.ofNat n) = '_' → Char.ofNat n = '_' := by decide
    have hc := hall c.toNat hascii
    rw [Char.ofNat_toNat] at hc
    exact hc h
  obtain ⟨-, heq⟩ | ⟨row, hmem, hholds, heq⟩ := lowerChar_cases (Nat.le_of_not_lt hascii)
  · exact heq.symm.trans h
  · have htoNat := toNat_ofNat_image hmem hholds
    rw [← heq, h] at htoNat
    have hafter := (charsOnly_image row hmem).2
    have hfirst := (CaseRow.image_bounds hholds).1
    have hunderscore : '_'.toNat = 0x5F := rfl
    omega

theorem underscore_mem_lower_iff (s : String) : '_' ∈ (lower s).toList ↔ '_' ∈ s.toList := by
  simp only [lower, String.toList_ofList, List.mem_map, lowerChar_eq_underscore_iff, exists_eq_right]

end Schemata.Text

namespace Schemata.Name

/-- The key of a name does not depend on its case. -/
@[simp] theorem key_lower (s : String) : key (Text.lower s) = key s := by
  have hfilter : (fun c => !isSeparator c) ∘ Text.lowerChar = fun c => !isSeparator c := by
    funext c
    simp
  have hmap : Text.lowerChar ∘ Text.lowerChar = Text.lowerChar := by
    funext c
    simp
  simp only [key, Text.lower, String.toList_ofList, List.filter_map, List.map_map, hfilter, hmap]

end Schemata.Name
