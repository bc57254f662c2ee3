import Mathlib.Data.List.Basic
import Mathlib.Data.List.Nodup
import Mathlib.Data.List.Perm.Basic
import Schemata.Content.Markers
import Schemata.Proofs.Lists
import Schemata.Proofs.Model.Trees

/-!
# Markers of sequences

First the sequences that do not repeat lose their markers, in whatever order they come up, and the others
keep them. Then the markers that are left are numbered in the order in which they first appear, so that
fields share a number exactly if they shared a marker. A second run of either changes nothing.
-/

namespace Schemata

variable {t : SchemaType} {f : Field} {fs before : List Field} {m n : Int} {seen order : List Int}

-- ---------------------------------------------------------------------------
-- Members of sequences
-- ---------------------------------------------------------------------------

/-- The fields that have a marker. -/
def members (fields : List Field) (marker : Int) : List Field :=
  fields.filter (·.restrictions.sequence == marker)

/-- The markers of the sequences that fields belong to, in the order in which they first appear. -/
def sequences (fields : List Field) : List Int :=
  ((fields.map (·.restrictions.sequence)).filter (· ≠ 0)).eraseDups

def Field.withSequence (marker : Int) (f : Field) : Field :=
  { f with restrictions.sequence := marker }

theorem Field.withSequence_eq_self (h : f.restrictions.sequence = m) : f.withSequence m = f := by
  subst h
  cases f
  rfl

theorem mem_members_iff : f ∈ members fs m ↔ f ∈ fs ∧ f.restrictions.sequence = m := by
  simp [members]

theorem mem_sequences_iff : m ∈ sequences fs ↔ m ≠ 0 ∧ ∃ f ∈ fs, f.restrictions.sequence = m := by
  simp [sequences, and_comm]

theorem repeats_iff : repeats fs = true ↔ 2 ≤ fs.length ∧ ∀ f ∈ fs, f.isList = true := by
  simp [repeats]

/-- Whether fields repeat together does not depend on their markers. -/
theorem repeats_map {change : Field → Field} (hchange : ∀ f, (change f).isList = f.isList) :
    repeats (fs.map change) = repeats fs := by
  rw [repeats, List.length_map, List.all_map]
  exact congrArg _ (List.all_congr rfl hchange)

-- ---------------------------------------------------------------------------
-- Clearing
-- ---------------------------------------------------------------------------

/-- The field with its marker, if it is in a sequence that repeats, and else without. -/
def retained (before : List Field) (f : Field) : Field :=
  if f.restrictions.sequence ≠ 0 ∧ repeats (members before f.restrictions.sequence) then f else f.withSequence 0

theorem SchemaType.clearSequences_eq (t : SchemaType) :
    t.clearSequences = { t with fields := t.fields.map (retained t.fields) } :=
  rfl

theorem retained_of_repeats (hne : f.restrictions.sequence ≠ 0)
    (hrepeats : repeats (members before f.restrictions.sequence) = true) : retained before f = f :=
  if_pos ⟨hne, hrepeats⟩

/-- A field that has a marker at the end is as it was, and in a sequence that repeats. -/
theorem repeats_of_retained (hne : (retained before f).restrictions.sequence ≠ 0) :
    retained before f = f ∧ repeats (members before f.restrictions.sequence) = true := by
  unfold retained at hne ⊢
  split
  case isTrue h => exact ⟨rfl, h.2⟩
  case isFalse h => exact absurd rfl (if_neg h ▸ hne)

theorem withSequence_retained (before : List Field) (f : Field) :
    (retained before f).withSequence 0 = f.withSequence 0 := by
  unfold retained
  split
  · rfl
  · rfl

theorem members_map_retained (hne : m ≠ 0) (hrepeats : repeats (members before m) = true) :
    members (before.map (retained before)) m = members before m := by
  have hsame : ∀ f, (retained before f).restrictions.sequence = m ↔ f.restrictions.sequence = m := by
    intro f
    constructor
    · intro hm
      rw [← hm, (repeats_of_retained (hm ▸ hne)).1]
    · rintro rfl
      rw [retained_of_repeats hne hrepeats]
  rw [members, List.filter_map]
  have hfilter : before.filter ((·.restrictions.sequence == m) ∘ retained before) = members before m := by
    refine List.filter_congr fun f _ => ?_
    rw [Function.comp_apply, Bool.eq_iff_iff, beq_iff_eq, beq_iff_eq]
    exact hsame f
  rw [hfilter]
  refine (List.map_congr_left fun f hf => ?_).trans (List.map_id _)
  obtain ⟨-, rfl⟩ := mem_members_iff.mp hf
  exact retained_of_repeats hne hrepeats

-- ---------------------------------------------------------------------------
-- Clearing one sequence after the other
-- ---------------------------------------------------------------------------

/-- Takes the marker off the fields that have it at first, unless these repeat together. -/
def clearSequence (before now : List Field) (marker : Int) : List Field :=
  if repeats (((before.zip now).filter (·.1.restrictions.sequence == marker)).map (·.2)) then now
  else List.zipWith (fun f g => if f.restrictions.sequence = marker then g.withSequence 0 else g) before now

/-- The field when the sequences in a list have come up. -/
def clearedFor (before : List Field) (done : List Int) (f : Field) : Field :=
  if f.restrictions.sequence ∈ done ∧ ¬ repeats (members before f.restrictions.sequence) then f.withSequence 0
  else f

theorem isList_clearedFor (before : List Field) (done : List Int) (f : Field) :
    (clearedFor before done f).isList = f.isList := by
  unfold clearedFor
  split
  · rfl
  · rfl

/-- One more sequence comes up. -/
theorem clearSequence_map_clearedFor (before : List Field) (done : List Int) (m : Int) :
    clearSequence before (before.map (clearedFor before done)) m = before.map (clearedFor before (done ++ [m])) := by
  have hnow : ((before.zip (before.map (clearedFor before done))).filter
      (·.1.restrictions.sequence == m)).map (·.2) = (members before m).map (clearedFor before done) := by
    have hzip := List.zip_map' (f := id) (g := clearedFor before done) (l := before)
    rw [List.map_id] at hzip
    rw [hzip, List.filter_map, List.map_map]
    rfl
  rw [clearSequence, hnow, repeats_map (isList_clearedFor before done), List.zipWith_map_right, List.zipWith_self]
  split
  case isTrue hrepeats =>
    refine List.map_congr_left fun f _ => ?_
    by_cases hf : f.restrictions.sequence = m
    · simp [clearedFor, hf, hrepeats]
    · simp [clearedFor, hf]
  case isFalse hrepeats =>
    refine List.map_congr_left fun f _ => ?_
    by_cases hf : f.restrictions.sequence = m
    · by_cases hdone : m ∈ done
      · simp [clearedFor, hf, hdone, hrepeats, Field.withSequence]
      · simp [clearedFor, hf, hdone, hrepeats]
    · simp [clearedFor, hf]

theorem foldl_clearSequence (before : List Field) (order done : List Int) :
    order.foldl (clearSequence before) (before.map (clearedFor before done)) =
      before.map (clearedFor before (done ++ order)) := by
  induction order generalizing done with
  | nil => rw [List.foldl_nil, List.append_nil]
  | cons m order ih =>
    rw [List.foldl_cons, clearSequence_map_clearedFor, ih, List.append_assoc, List.singleton_append]

theorem clearedFor_sequences (hf : f ∈ before) (horder : ∀ m, m ∈ order ↔ m ∈ sequences before) :
    clearedFor before order f = retained before f := by
  by_cases hzero : f.restrictions.sequence = 0
  · have hnone : f.restrictions.sequence ∉ order := fun hmem => (mem_sequences_iff.mp ((horder _).mp hmem)).1 hzero
    rw [clearedFor, retained, if_neg fun h => hnone h.1, if_neg fun h => h.1 hzero]
    exact (Field.withSequence_eq_self hzero).symm
  · have hmem : f.restrictions.sequence ∈ order := (horder _).mpr (mem_sequences_iff.mpr ⟨hzero, f, hf, rfl⟩)
    by_cases hrepeats : repeats (members before f.restrictions.sequence) = true
    · rw [clearedFor, retained, if_neg fun h => h.2 hrepeats, if_pos ⟨hzero, hrepeats⟩]
    · rw [clearedFor, retained, if_pos ⟨hmem, hrepeats⟩, if_neg fun h => hrepeats h.2]

namespace SchemaType

/-- In whatever order the sequences come up, the same markers are left. -/
theorem foldl_clearSequence_of_perm (horder : order.Perm (sequences t.fields)) :
    order.foldl (clearSequence t.fields) t.fields = t.clearSequences.fields := by
  have hstart : t.fields.map (clearedFor t.fields []) = t.fields :=
    (List.map_congr_left fun f _ => by simp [clearedFor]).trans (List.map_id _)
  have hfold := foldl_clearSequence t.fields order []
  rw [hstart, List.nil_append] at hfold
  rw [hfold, clearSequences_eq]
  exact List.map_congr_left fun f hf => clearedFor_sequences hf fun m => horder.mem_iff

/-- Of the sequences of the type `t` those that repeat are left in `t'`, and all else is as it was. -/
structure SequencesCleared (t t' : SchemaType) : Prop where
  /-- A marker that is left is where it was, and several fields share it, all of them lists. -/
  shared : ∀ (i : Nat) (f : Field), t'.fields[i]? = some f → f.restrictions.sequence ≠ 0 →
    t.fields[i]? = some f ∧ 2 ≤ (members t'.fields f.restrictions.sequence).length ∧
      ∀ g ∈ members t'.fields f.restrictions.sequence, g.isList = true
  /-- A marker that several fields share, all of them lists, is left. -/
  kept : ∀ (i : Nat) (f : Field), t.fields[i]? = some f → f.restrictions.sequence ≠ 0 →
    2 ≤ (members t.fields f.restrictions.sequence).length →
    (∀ g ∈ members t.fields f.restrictions.sequence, g.isList = true) → t'.fields[i]? = some f
  others : { t' with fields := t'.fields.map (Field.withSequence 0) } =
    { t with fields := t.fields.map (Field.withSequence 0) }

theorem sequencesCleared_clearSequences (t : SchemaType) : SequencesCleared t t.clearSequences where
  shared i f hf hne := by
    rw [clearSequences_eq, List.getElem?_map, Option.map_eq_some_iff] at hf
    obtain ⟨g, hg, rfl⟩ := hf
    obtain ⟨hsame, hrepeats⟩ := repeats_of_retained hne
    rw [hsame] at hne ⊢
    rw [clearSequences_eq, members_map_retained hne hrepeats]
    exact ⟨hg, repeats_iff.mp hrepeats⟩
  kept i f hf hne hseveral hlists := by
    rw [clearSequences_eq, List.getElem?_map, hf, Option.map_some,
      retained_of_repeats hne (repeats_iff.mpr ⟨hseveral, hlists⟩)]
  others := by
    rw [clearSequences_eq, List.map_map]
    simp only [Function.comp_def, withSequence_retained]

theorem clearSequences_clearSequences (t : SchemaType) : t.clearSequences.clearSequences = t.clearSequences := by
  have hagain : t.clearSequences.fields.map (retained t.clearSequences.fields) = t.clearSequences.fields := by
    refine (List.map_congr_left fun f hf => ?_).trans (List.map_id _)
    rw [clearSequences_eq] at hf ⊢
    obtain ⟨g, -, rfl⟩ := List.mem_map.mp hf
    by_cases hzero : (retained t.fields g).restrictions.sequence = 0
    · rw [retained, if_neg fun h => h.1 hzero]
      exact Field.withSequence_eq_self hzero
    · obtain ⟨hsame, hrepeats⟩ := repeats_of_retained hzero
      rw [hsame] at hzero ⊢
      refine retained_of_repeats hzero ?_
      rwa [members_map_retained hzero hrepeats]
  rw [clearSequences_eq t.clearSequences, hagain]
  rfl

end SchemaType

-- ---------------------------------------------------------------------------
-- Numbering
-- ---------------------------------------------------------------------------

/-- The number of a marker among those that have appeared. -/
def numberIn (seen : List Int) (marker : Int) : Int :=
  if marker = 0 then 0 else seen.idxOf marker + 1

/-- The markers that have appeared when one more has. -/
def appear (seen : List Int) (marker : Int) : List Int :=
  if marker = 0 ∨ marker ∈ seen then seen else seen ++ [marker]

/-- The field at a position, with its choices at theirs and another marker. -/
def Field.placed (position : Nat) (marker : Int) (f : Field) : Field :=
  { f with
    index := position
    restrictions.sequence := marker
    choices := f.choices.mapIdx fun j c => { c with index := j } }

theorem numberMarker_eq (seen : List Int) (m : Int) :
    numberMarker seen m = (numberIn (appear seen m) m, appear seen m) := by
  unfold numberMarker
  by_cases hzero : m = 0
  · simp [numberIn, appear, hzero]
  rw [if_neg hzero]
  have hidx := List.idxOf_eq_getD_idxOf? m seen
  split
  case h_1 i hi =>
    have hmem : m ∈ seen := by
      by_contra hnot
      rw [List.idxOf?_eq_none_iff.mpr hnot] at hi
      cases hi
    rw [hi, Option.getD_some] at hidx
    rw [appear, if_pos (.inr hmem), numberIn, if_neg hzero, hidx]
  case h_2 hnone =>
    have hmem : m ∉ seen := List.idxOf?_eq_none_iff.mp hnone
    rw [appear, if_neg (not_or.mpr ⟨hzero, hmem⟩), numberIn, if_neg hzero, List.idxOf_append_of_notMem hmem,
      List.idxOf_cons_self, Nat.add_zero]

/-- The markers that have appeared when those of fields have. -/
def appearing (seen : List Int) (fields : List Field) : List Int :=
  (seen ++ (fields.map (·.restrictions.sequence)).filter (· ≠ 0)).eraseDups

theorem appear_cases (seen : List Int) (m : Int) :
    (m = 0 ∨ m ∈ seen) ∧ appear seen m = seen ∨ m ≠ 0 ∧ m ∉ seen ∧ appear seen m = seen ++ [m] := by
  unfold appear
  split
  case isTrue h => exact .inl ⟨h, rfl⟩
  case isFalse h => exact .inr ⟨(not_or.mp h).1, (not_or.mp h).2, rfl⟩

theorem mem_appear_self (hm : m ≠ 0) : m ∈ appear seen m := by
  obtain ⟨h, heq⟩ | ⟨-, -, heq⟩ := appear_cases seen m
  · rw [heq]
    exact h.resolve_left hm
  · rw [heq]
    exact List.mem_append_right _ List.mem_cons_self

theorem eraseDups_appear (hseen : seen.eraseDups = seen) (m : Int) : (appear seen m).eraseDups = appear seen m := by
  obtain ⟨-, heq⟩ | ⟨-, hnot, heq⟩ := appear_cases seen m
  · rw [heq, hseen]
  · have hnew : [m].removeAll seen = [m] := by simp [List.removeAll, hnot]
    rw [heq, List.eraseDups_append, hseen, hnew]
    rfl

theorem appearing_cons (seen : List Int) (f : Field) (fs : List Field) :
    appearing seen (f :: fs) = appearing (appear seen f.restrictions.sequence) fs := by
  unfold appearing
  obtain ⟨hold | hold, heq⟩ | ⟨hzero, -, heq⟩ := appear_cases seen f.restrictions.sequence
  · rw [heq]
    simp [hold]
  · rw [heq]
    by_cases hzero : f.restrictions.sequence = 0
    · simp [hzero]
    · simp [hzero, List.eraseDups_append, List.removeAll, hold]
  · rw [heq]
    simp [hzero]

/-- A marker that has appeared keeps its number. -/
theorem numberIn_appearing (hseen : seen.eraseDups = seen) (hm : m = 0 ∨ m ∈ seen) (fs : List Field) :
    numberIn (appearing seen fs) m = numberIn seen m := by
  unfold numberIn
  split
  case isTrue => rfl
  case isFalse hzero =>
    rw [appearing, List.eraseDups_append, hseen, List.idxOf_append_of_mem (hm.resolve_left hzero)]

/-- Every field is put in its place, with the number that its marker has among all. -/
theorem numberFields_eq (hseen : seen.eraseDups = seen) (fs : List Field) (i : Nat) :
    numberFields fs i seen =
      fs.mapIdx fun j f => f.placed (i + j) (numberIn (appearing seen fs) f.restrictions.sequence) := by
  induction fs generalizing i seen with
  | nil => rfl
  | cons f fs ih =>
    have hnext := eraseDups_appear hseen f.restrictions.sequence
    have hnumber : numberIn (appearing (appear seen f.restrictions.sequence) fs) f.restrictions.sequence =
        numberIn (appear seen f.restrictions.sequence) f.restrictions.sequence :=
      numberIn_appearing hnext (or_iff_not_imp_left.mpr mem_appear_self) fs
    rw [numberFields, numberMarker_eq, List.mapIdx_cons, appearing_cons, hnumber]
    dsimp only
    rw [ih hnext]
    simp only [Nat.add_assoc, Nat.add_comm 1]
    rfl

namespace SchemaType

theorem renumberFields_eq (t : SchemaType) : t.renumberFields = { t with
    fields := t.fields.mapIdx fun i f => f.placed i (numberIn (sequences t.fields) f.restrictions.sequence) } := by
  have hnil : ([] : List Int).eraseDups = [] := rfl
  rw [renumberFields, numberFields_eq hnil]
  simp only [Nat.zero_add]
  rfl

end SchemaType

theorem nodup_sequences (fs : List Field) : (sequences fs).Nodup :=
  Lists.nodup_eraseDups _

theorem eq_zero_or_mem_sequences (hf : f ∈ fs) :
    f.restrictions.sequence = 0 ∨ f.restrictions.sequence ∈ sequences fs :=
  or_iff_not_imp_left.mpr fun hzero => mem_sequences_iff.mpr ⟨hzero, f, hf, rfl⟩

theorem numberIn_eq_zero_iff : numberIn seen m = 0 ↔ m = 0 := by
  unfold numberIn
  split <;> omega

theorem numberIn_inj (hm : m = 0 ∨ m ∈ seen) : numberIn seen m = numberIn seen n ↔ m = n := by
  by_cases hzero : m = 0
  · subst hzero
    rw [numberIn_eq_zero_iff.mpr rfl, eq_comm, numberIn_eq_zero_iff, eq_comm]
  by_cases hn : n = 0
  · subst hn
    rw [numberIn_eq_zero_iff.mpr rfl, numberIn_eq_zero_iff]
  rw [numberIn, if_neg hzero, numberIn, if_neg hn, ← List.idxOf_inj (hm.resolve_left hzero)]
  omega

/-- The numbers from one on, as markers. -/
def firstMarkers (k : Nat) : List Int :=
  (List.range' 1 k).map Int.ofNat

theorem getElem_firstMarkers {k j : Nat} (hj : j < (firstMarkers k).length) : (firstMarkers k)[j] = j + 1 := by
  simp only [firstMarkers, List.getElem_map, List.getElem_range', Int.ofNat_eq_natCast]
  omega

theorem nodup_firstMarkers (k : Nat) : (firstMarkers k).Nodup :=
  List.Nodup.map (f := Int.ofNat) (fun _ _ => Int.ofNat.inj) (List.nodup_range' ..)

/-- The markers that have appeared are numbered from one on. -/
theorem map_numberIn (hseen : seen.Nodup) (hzero : 0 ∉ seen) :
    seen.map (numberIn seen) = firstMarkers seen.length := by
  refine List.ext_getElem (by simp [firstMarkers]) fun j hj hj' => ?_
  rw [List.getElem_map, getElem_firstMarkers, numberIn, if_neg, hseen.idxOf_getElem]
  intro hne
  exact hzero (hne ▸ List.getElem_mem _)

theorem numberIn_firstMarkers {k : Nat} (hn : n = 0 ∨ n ∈ firstMarkers k) : numberIn (firstMarkers k) n = n := by
  by_cases hzero : n = 0
  · rw [hzero, numberIn_eq_zero_iff]
  obtain ⟨j, hj, rfl⟩ := List.getElem_of_mem (hn.resolve_left hzero)
  rw [numberIn, if_neg hzero, (nodup_firstMarkers k).idxOf_getElem, getElem_firstMarkers]

namespace Field

/-- The field without its number, its marker and the numbers of its choices. -/
def unnumbered (f : Field) : Field :=
  { f with index := 0, restrictions.sequence := 0, choices := f.choices.map fun c => { c with index := 0 } }

theorem unnumbered_placed (i : Nat) (m : Int) (f : Field) : (f.placed i m).unnumbered = f.unnumbered := by
  have hchoices : (f.choices.mapIdx fun j c => { c with index := (j : Int) }).map (fun c => { c with index := 0 }) =
      f.choices.map fun c => { c with index := 0 } := by
    refine List.ext_getElem? fun j => ?_
    simp [Function.comp_def]
  simp only [unnumbered, placed, hchoices]

/-- No type is touched. -/
theorem allTypes_placed (i : Nat) (m : Int) (f : Field) : (f.placed i m).allTypes = f.allTypes := by
  have hchoice : ∀ (c : Field) (j : Int), allTypes { c with index := j } = c.allTypes :=
    fun c j => by rw [allTypes_eq, allTypes_eq]
  have hchoices : (f.placed i m).choices.map allTypes = f.choices.map allTypes := by
    refine List.ext_getElem? fun j => ?_
    simp [placed, hchoice, Function.comp_def]
  rw [allTypes_eq, allTypes_eq f, allTypesOf_eq_flatMap, allTypesOf_eq_flatMap, List.flatMap_def, List.flatMap_def,
    hchoices]
  rfl

theorem placed_placed (i : Nat) (m n : Int) (f : Field) : (f.placed i m).placed i n = f.placed i n := by
  simp only [placed, List.mapIdx_mapIdx, Function.comp_def]

end Field

namespace SchemaType

/-- The fields of `t'` are those of `t`, numbered by position. Their choices are numbered so as well, and
their markers by first appearance. -/
structure SequencesNumbered (t t' : SchemaType) : Prop where
  index : ∀ (i : Nat) (f : Field), t'.fields[i]? = some f →
    f.index = i ∧ ∀ (j : Nat) (c : Field), f.choices[j]? = some c → c.index = j
  zero : ∀ (i : Nat) (f f' : Field), t.fields[i]? = some f → t'.fields[i]? = some f' →
    (f'.restrictions.sequence = 0 ↔ f.restrictions.sequence = 0)
  /-- Fields share a marker exactly if they shared one before. -/
  alike : ∀ (i j : Nat) (f g f' g' : Field), t.fields[i]? = some f → t.fields[j]? = some g →
    t'.fields[i]? = some f' → t'.fields[j]? = some g' →
    (f'.restrictions.sequence = g'.restrictions.sequence ↔ f.restrictions.sequence = g.restrictions.sequence)
  /-- The markers are the numbers from one on, as many as there were markers, and appear in this order. -/
  inOrder : sequences t'.fields = firstMarkers (sequences t.fields).length
  others : { t' with fields := t'.fields.map Field.unnumbered } = { t with fields := t.fields.map Field.unnumbered }

theorem getElem?_renumberFields {i : Nat} {f' : Field} (hf' : t.renumberFields.fields[i]? = some f') :
    ∃ f, t.fields[i]? = some f ∧ f' = f.placed i (numberIn (sequences t.fields) f.restrictions.sequence) := by
  rw [renumberFields_eq, List.getElem?_mapIdx, Option.map_eq_some_iff] at hf'
  obtain ⟨f, hf, rfl⟩ := hf'
  exact ⟨f, hf, rfl⟩

theorem fieldTypes_renumberFields (t : SchemaType) : t.renumberFields.fieldTypes = t.fieldTypes := by
  have hfields : t.renumberFields.fields.map Field.allTypes = t.fields.map Field.allTypes := by
    rw [renumberFields_eq]
    refine List.ext_getElem? fun i => ?_
    simp [Field.allTypes_placed, Function.comp_def]
  rw [fieldTypes, fieldTypes, List.flatMap_def, List.flatMap_def, hfields]
  rfl

theorem sequences_renumberFields (t : SchemaType) :
    sequences t.renumberFields.fields = firstMarkers (sequences t.fields).length := by
  have hmarkers : t.renumberFields.fields.map (·.restrictions.sequence) =
      (t.fields.map (·.restrictions.sequence)).map (numberIn (sequences t.fields)) := by
    rw [renumberFields_eq]
    refine List.ext_getElem? fun i => ?_
    simp [Field.placed, Function.comp_def]
  have hnonzero : (fun m : Int => decide (m ≠ 0)) ∘ numberIn (sequences t.fields) = fun m => decide (m ≠ 0) := by
    funext m
    simp [numberIn_eq_zero_iff]
  have hzero : (0 : Int) ∉ sequences t.fields := fun h => (mem_sequences_iff.mp h).1 rfl
  rw [sequences, hmarkers, List.filter_map, hnonzero, Lists.eraseDups_map fun m hm n _ h => ?_]
  · exact map_numberIn (nodup_sequences _) hzero
  · exact (numberIn_inj (.inr (List.mem_eraseDups.mpr hm))).mp h

theorem sequencesNumbered_renumberFields (t : SchemaType) : SequencesNumbered t t.renumberFields where
  index i f' hf' := by
    obtain ⟨f, -, rfl⟩ := getElem?_renumberFields hf'
    refine ⟨rfl, fun j c hc => ?_⟩
    rw [Field.placed, List.getElem?_mapIdx, Option.map_eq_some_iff] at hc
    obtain ⟨c, -, rfl⟩ := hc
    rfl
  zero i f f' hf hf' := by
    obtain ⟨g, hg, rfl⟩ := getElem?_renumberFields hf'
    obtain rfl := Option.some.inj (hf.symm.trans hg)
    exact numberIn_eq_zero_iff
  alike i j f g f' g' hf hg hf' hg' := by
    obtain ⟨_, hf₁, rfl⟩ := getElem?_renumberFields hf'
    obtain rfl := Option.some.inj (hf.symm.trans hf₁)
    obtain ⟨_, hg₁, rfl⟩ := getElem?_renumberFields hg'
    obtain rfl := Option.some.inj (hg.symm.trans hg₁)
    exact numberIn_inj (eq_zero_or_mem_sequences (List.mem_of_getElem? hf))
  inOrder := sequences_renumberFields t
  others := by
    have hfields : t.renumberFields.fields.map Field.unnumbered = t.fields.map Field.unnumbered := by
      rw [renumberFields_eq]
      refine List.ext_getElem? fun i => ?_
      simp [Field.unnumbered_placed, Function.comp_def]
    rw [hfields]
    rfl

theorem renumberFields_renumberFields (t : SchemaType) : t.renumberFields.renumberFields = t.renumberFields := by
  have hagain : (t.renumberFields.fields.mapIdx fun i f =>
      f.placed i (numberIn (sequences t.renumberFields.fields) f.restrictions.sequence)) =
      t.renumberFields.fields := by
    rw [sequences_renumberFields]
    refine List.ext_getElem? fun i => ?_
    rw [List.getElem?_mapIdx]
    cases hf' : t.renumberFields.fields[i]? with
    | none => rfl
    | some f' =>
      have hnumber : numberIn (firstMarkers (sequences t.fields).length) f'.restrictions.sequence =
          f'.restrictions.sequence := by
        refine numberIn_firstMarkers ?_
        rw [← sequences_renumberFields]
        exact eq_zero_or_mem_sequences (List.mem_of_getElem? hf')
      obtain ⟨f, -, rfl⟩ := getElem?_renumberFields hf'
      rw [Option.map_some, hnumber, Field.placed_placed]
      rfl
  rw [renumberFields_eq t.renumberFields, hagain]
  rfl

/-- Markers of sequences are cleared and then numbered. Of the sequences those that repeat are left,
whatever the order in which all come up, and nothing else goes. Numbering gives two fields one marker
exactly if they had one. Each ends with its first run. -/
theorem sequences_settle (t : SchemaType) {order : List Int} (horder : order.Perm (sequences t.fields)) :
    SequencesCleared t t.clearSequences ∧
    order.foldl (clearSequence t.fields) t.fields = t.clearSequences.fields ∧
    t.clearSequences.clearSequences = t.clearSequences ∧
    SequencesNumbered t t.renumberFields ∧
    t.renumberFields.renumberFields = t.renumberFields :=
  ⟨sequencesCleared_clearSequences t, foldl_clearSequence_of_perm horder, clearSequences_clearSequences t,
    sequencesNumbered_renumberFields t, renumberFields_renumberFields t⟩

end SchemaType

namespace Interleaved

/-- Two sequences that repeat, with the numbers of each other, and two that do not. -/
def record : SchemaType :=
  let field (name : String) (marker max : Int) : Field :=
    { name, restrictions := { sequence := marker, maxOccurs := some max } }
  { fields := [field "a" 2 3, field "b" 1 3, field "c" 0 1, field "d" 2 5, field "e" 1 2, field "f" 3 4,
      field "g" 7 1, field "h" 7 2] }

theorem record_settles :
    record.clearSequences.fields.map (·.restrictions.sequence) = [2, 1, 0, 2, 1, 0, 0, 0] ∧
    [7, 1, 3, 2].foldl (clearSequence record.fields) record.fields = record.clearSequences.fields ∧
    record.clearSequences.renumberFields.fields.map (·.restrictions.sequence) = [1, 2, 0, 1, 2, 0, 0, 0] ∧
    record.SequencesCleared record.clearSequences ∧ record.SequencesNumbered record.renumberFields := by
  have horder : [7, 1, 3, 2].Perm (sequences record.fields) := by decide +kernel
  obtain ⟨hcleared, hany, -, hnumbered, -⟩ := record.sequences_settle horder
  exact ⟨by decide +kernel, hany, by decide +kernel, hcleared, hnumbered⟩

end Interleaved

end Schemata
