import Mathlib.Data.List.Sigma
import Schemata.Choice.Compound
import Schemata.Proofs.Lists
import Schemata.Proofs.Name.Segments

/-!
# Grouping of choices

The choices of a type are merged one after the other, each on the list that the earlier ones have
left. What comes of it can still be said of each field by itself: the first member of a choice gives
way to the compound, the other members go, and what is in no choice with several members stays. The
name of a compound is free when it is made, so names that were apart stay apart.
-/

namespace Schemata

variable {c : CompoundConfig} {inherited : List Field → List Field} {fs : List Field}
  {merged : Int → Field} {done marks : List Int} {m : Int} {f : Field} {i : Nat}

-- ---------------------------------------------------------------------------
-- Choices
-- ---------------------------------------------------------------------------

/-- Whether a field takes part in the choice with a marker. -/
def Field.joins (m : Int) (f : Field) : Bool :=
  f.inChoice && f.restrictions.choice == m

/-- The members of the choice with a marker. -/
def choiceMembers (fs : List Field) (m : Int) : List Field :=
  fs.filter (·.joins m)

/-- The positions of the members of the choice with a marker. -/
def choicePlaces (fs : List Field) (m : Int) : List Nat :=
  (fs.zipIdx.filter fun p => p.1.joins m).map (·.2)

/-- The markers of the choices with several members, by first appearance. -/
def choiceMarkers (fs : List Field) : List Int :=
  (((fs.zipIdx.filter fun p => p.1.inChoice).map fun p => p.1.restrictions.choice).eraseDups).filter
    fun m => 1 < (choicePlaces fs m).length

theorem Field.joins_eq_true : f.joins m = true ↔ f.inChoice = true ∧ f.restrictions.choice = m := by
  simp [joins]

theorem choiceGroups_eq (fs : List Field) :
    choiceGroups fs = (choiceMarkers fs).map fun m => (m, choicePlaces fs m) := by
  have hplaces : ∀ m, ((fs.zipIdx.filter fun p => p.1.inChoice).filter fun p =>
      p.1.restrictions.choice == m).map (·.2) = choicePlaces fs m := by
    intro m
    rw [List.filter_filter, choicePlaces]
    exact congrArg _ (List.filter_congr fun p _ => Bool.and_comm _ _)
  change List.filter (fun p => decide (p.2.length > 1)) (((((fs.zipIdx.filter fun p => p.1.inChoice).map
    fun p => p.1.restrictions.choice).eraseDups).map fun m => (m, ((fs.zipIdx.filter fun p =>
      p.1.inChoice).filter fun p => p.1.restrictions.choice == m).map (·.2)))) = _
  simp only [hplaces, List.filter_map, choiceMarkers]
  rfl

theorem map_fst_places (fs : List Field) (m : Int) :
    (fs.zipIdx.filter fun p => p.1.joins m).map (·.1) = choiceMembers fs m := by
  rw [choiceMembers]
  conv_rhs => rw [← List.zipIdx_map_fst 0 fs, List.filter_map]
  rfl

theorem length_choicePlaces (fs : List Field) (m : Int) :
    (choicePlaces fs m).length = (choiceMembers fs m).length := by
  rw [choicePlaces, List.length_map, ← map_fst_places, List.length_map]

theorem head?_choicePlaces (fs : List Field) (m : Int) :
    (choicePlaces fs m).head? = fs.findIdx? (·.joins m) := by
  rw [choicePlaces, List.head?_map, List.head?_filter, List.findIdx?_eq_fst_find?_zipIdx]

theorem mem_choicePlaces_iff (hf : (f, i) ∈ fs.zipIdx) : i ∈ choicePlaces fs m ↔ f.joins m = true := by
  rw [choicePlaces, List.mem_map]
  constructor
  · rintro ⟨⟨g, j⟩, hg, rfl⟩
    obtain ⟨hg, hjoins⟩ := List.mem_filter.mp hg
    rw [List.mem_zipIdx_iff_getElem?] at hf hg
    obtain rfl : g = f := Option.some.inj (hg.symm.trans hf)
    exact hjoins
  · exact fun hjoins => ⟨(f, i), List.mem_filter.mpr ⟨hf, hjoins⟩, rfl⟩

theorem nodup_choiceMarkers (fs : List Field) : (choiceMarkers fs).Nodup :=
  (Lists.nodup_eraseDups _).filter _

theorem mem_choiceMarkers_iff : m ∈ choiceMarkers fs ↔ 2 ≤ (choiceMembers fs m).length := by
  rw [choiceMarkers, List.mem_filter, List.mem_eraseDups, length_choicePlaces, decide_eq_true_iff]
  refine ⟨fun h => h.2, fun hseveral => ⟨?_, hseveral⟩⟩
  obtain ⟨f, hf⟩ := List.exists_mem_of_length_pos (Nat.lt_of_lt_of_le Nat.zero_lt_two hseveral)
  rw [← map_fst_places] at hf
  obtain ⟨p, hp, -⟩ := List.mem_map.mp hf
  obtain ⟨hp, hjoins⟩ := List.mem_filter.mp hp
  obtain ⟨hchoice, hmarker⟩ := Field.joins_eq_true.mp hjoins
  exact List.mem_map.mpr ⟨p, List.mem_filter.mpr ⟨hp, hchoice⟩, hmarker⟩

-- ---------------------------------------------------------------------------
-- Fields on the way
-- ---------------------------------------------------------------------------

/-- What becomes of the field at a position once the choices with some of the markers are merged. -/
def placeStaged (fs : List Field) (merged : Int → Field) (done : List Int) (p : Field × Nat) :
    Option (Field × Option Nat) :=
  if p.1.inChoice = true ∧ p.1.restrictions.choice ∈ done then
    if fs.findIdx? (·.joins p.1.restrictions.choice) = some p.2 then
      some (merged p.1.restrictions.choice, none)
    else none
  else some (p.1, some p.2)

/-- The fields and their first positions once the choices with some of the markers are merged. -/
def staged (fs : List Field) (merged : Int → Field) (done : List Int) : List (Field × Option Nat) :=
  fs.zipIdx.filterMap (placeStaged fs merged done)

theorem staged_nil (fs : List Field) (merged : Int → Field) :
    staged fs merged [] = fs.zipIdx.map fun (f, i) => (f, some i) := by
  rw [staged, ← List.filterMap_eq_map]
  refine List.filterMap_congr fun p _ => ?_
  simp [placeStaged]

/-- Whether an entry is a member of a group. -/
def isMember (places : List Nat) (p : Field × Option Nat) : Bool :=
  p.2.any places.contains

/-- The fields that are not members of a group. -/
def othersOf (fields : List (Field × Option Nat)) (places : List Nat) : List Field :=
  (fields.filter (!isMember places ·)).map (·.1)

theorem placeStaged_of_mem (hchoice : f.inChoice = true) (hmem : f.restrictions.choice ∈ done) :
    placeStaged fs merged done (f, i) =
      if fs.findIdx? (·.joins f.restrictions.choice) = some i then
        some (merged f.restrictions.choice, none)
      else none :=
  if_pos ⟨hchoice, hmem⟩

theorem placeStaged_of_not (hnot : ¬(f.inChoice = true ∧ f.restrictions.choice ∈ done)) :
    placeStaged fs merged done (f, i) = some (f, some i) :=
  if_neg hnot

theorem placeStaged_of_joins (hm : m ∉ done) (hjoins : f.joins m = true) :
    placeStaged fs merged done (f, i) = some (f, some i) := by
  obtain ⟨-, rfl⟩ := Field.joins_eq_true.mp hjoins
  exact placeStaged_of_not fun h => hm h.2

/-- The members of a choice that is not merged yet are all there. -/
theorem members_staged (hm : m ∉ done) :
    ((staged fs merged done).filter (isMember (choicePlaces fs m))).map (·.1) = choiceMembers fs m := by
  rw [staged, List.filter_filterMap, List.map_filterMap, ← map_fst_places, ← List.filterMap_eq_map,
    List.filterMap_filter]
  refine List.filterMap_congr fun ⟨f, i⟩ hf => ?_
  by_cases hjoins : f.joins m = true
  · have hplace := (mem_choicePlaces_iff hf).mpr hjoins
    rw [if_pos hjoins, placeStaged_of_joins hm hjoins]
    simp [isMember, hplace]
  · have hplace := mt (mem_choicePlaces_iff hf).mp hjoins
    rw [if_neg hjoins]
    unfold placeStaged
    split
    · split <;> simp [isMember]
    · simp [isMember, hplace]

-- ---------------------------------------------------------------------------
-- One merge
-- ---------------------------------------------------------------------------

/-- No two entries have names with the same key. -/
def Apart (fields : List (Field × Option Nat)) : Prop :=
  fields.Pairwise fun p q => Name.key p.1.name ≠ Name.key q.1.name

/-- What becomes of an entry when its group is merged into a field. -/
def placeMerged (places : List Nat) (new : Field) (p : Field × Option Nat) :
    Option (Field × Option Nat) :=
  if p.2 == places.head? then some (new, none) else if isMember places p then none else some p

/-- A merge puts a field with a free name in the place of the first member. -/
theorem mergeChoice_eq (c : CompoundConfig) (inherited : List Field → List Field) (m : Int)
    (fields : List (Field × Option Nat)) (places : List Nat) : ∃ name,
    mergeChoice c inherited fields (m, places) = fields.filterMap (placeMerged places
      (compoundField name m ((fields.filter (isMember places)).map (·.1)))) ∧
    Name.key name ∉ (othersOf fields places).map (Name.key ·.name) ∧
    Name.key name ∉ (inherited (fields.map (·.1))).map (Name.key ·.name) := by
  have hfree := Name.key_unique_not_mem (c.nameFor ((fields.filter (isMember places)).map (·.1)))
    ((othersOf fields places ++ inherited (fields.map (·.1))).map (Name.key ·.name))
  rw [List.map_append, List.mem_append, not_or, ← List.map_append] at hfree
  refine ⟨_, ?_, hfree⟩
  unfold mergeChoice placeMerged othersOf isMember
  dsimp only

/-- The places of a type's fields are different; only compounds have none. -/
theorem places_staged (fs : List Field) (merged : Int → Field) (done : List Int) :
    (staged fs merged done).Pairwise fun p q => p.2 = q.2 → p.2 = none := by
  have hplaces := List.nodup_zipIdx_map_snd fs
  refine List.Pairwise.filterMap _ (fun p q hne p' hp' q' hq' heq => ?_) (List.pairwise_map.mp hplaces)
  simp only [placeStaged] at hp' hq'
  grind

theorem apart_merge {fields : List (Field × Option Nat)} {places : List Nat} (new : Field)
    (hplaces : fields.Pairwise fun p q => p.2 = q.2 → p.2 = none) (hsome : places ≠ [])
    (hfree : Name.key new.name ∉ (othersOf fields places).map (Name.key ·.name)) (hfields : Apart fields) :
    Apart (fields.filterMap (placeMerged places new)) := by
  obtain ⟨first, hfirst⟩ : ∃ first, places.head? = some first :=
    Option.ne_none_iff_exists'.mp (mt List.head?_eq_none_iff.mp hsome)
  -- an entry that stays is one of the others
  have hother : ∀ p ∈ fields, isMember places p = false → Name.key p.1.name ≠ Name.key new.name := by
    intro p hp hmember heq
    refine hfree (heq ▸ List.mem_map_of_mem (f := fun f : Field => Name.key f.name) ?_)
    exact List.mem_map_of_mem (List.mem_filter.mpr ⟨hp, by rw [hmember]; rfl⟩)
  refine List.pairwise_filterMap.mpr ((hplaces.and hfields).imp_of_mem ?_)
  rintro p q hp hq ⟨hplace, hkeys⟩ p' hp' q' hq'
  unfold placeMerged at hp' hq'
  rw [hfirst] at hp' hq'
  split at hp'
  case isTrue hpfirst =>
    obtain rfl := Option.some.inj hp'
    split at hq'
    case isTrue hqfirst =>
      -- two entries have the first place
      have hpfirst := beq_iff_eq.mp hpfirst
      rw [hplace (hpfirst.trans (beq_iff_eq.mp hqfirst).symm)] at hpfirst
      cases hpfirst
    case isFalse =>
      split at hq'
      case isTrue => cases hq'
      case isFalse hmember =>
        obtain rfl := Option.some.inj hq'
        exact (hother q hq (Bool.eq_false_iff.mpr hmember)).symm
  case isFalse =>
    split at hp'
    case isTrue => cases hp'
    case isFalse hmember =>
      obtain rfl := Option.some.inj hp'
      have hp' := hother p hp (Bool.eq_false_iff.mpr hmember)
      split at hq'
      case isTrue =>
        obtain rfl := Option.some.inj hq'
        exact hp'
      case isFalse =>
        split at hq'
        case isTrue => cases hq'
        case isFalse =>
          obtain rfl := Option.some.inj hq'
          exact hkeys

theorem placeMerged_compound {places : List Nat} (hsome : places ≠ []) (new g : Field) :
    placeMerged places new (g, none) = some (g, none) := by
  cases places with
  | nil => exact absurd rfl hsome
  | cons => rfl

theorem placeMerged_of_mem {places : List Nat} (hi : i ∈ places) (new : Field) :
    placeMerged places new (f, some i) = if places.head? = some i then some (new, none) else none := by
  have hmember : isMember places (f, some i) = true := by simpa [isMember] using hi
  rw [placeMerged, if_pos hmember]
  simp only [beq_iff_eq, eq_comm (a := some i)]

theorem placeMerged_of_not_mem {places : List Nat} (hi : i ∉ places) (new : Field) :
    placeMerged places new (f, some i) = some (f, some i) := by
  have hfirst : places.head? ≠ some i := fun hhead => hi (List.mem_of_head? hhead)
  simp [placeMerged, isMember, hi, hfirst.symm]

/-- Merging the choice with a marker brings the fields one stage on. -/
theorem merge_staged (hm : m ∉ done) (hsome : choicePlaces fs m ≠ []) (new : Field) :
    (staged fs merged done).filterMap (placeMerged (choicePlaces fs m) new) =
      staged fs (Function.update merged m new) (m :: done) := by
  rw [staged, staged, List.filterMap_filterMap]
  refine List.filterMap_congr fun ⟨f, i⟩ hf => ?_
  by_cases hjoins : f.joins m = true
  · -- a member of this choice
    rw [placeStaged_of_joins hm hjoins, Option.bind_some,
      placeMerged_of_mem ((mem_choicePlaces_iff hf).mpr hjoins), head?_choicePlaces]
    obtain ⟨hchoice, rfl⟩ := Field.joins_eq_true.mp hjoins
    rw [placeStaged_of_mem hchoice List.mem_cons_self, Function.update_self]
  by_cases hdone : f.inChoice = true ∧ f.restrictions.choice ∈ done
  · -- a member of a choice that has been merged
    have hne : f.restrictions.choice ≠ m := fun heq => hm (heq ▸ hdone.2)
    rw [placeStaged_of_mem hdone.1 hdone.2, placeStaged_of_mem hdone.1 (List.mem_cons_of_mem _ hdone.2),
      Function.update_of_ne hne]
    split
    · exact placeMerged_compound hsome _ _
    · rfl
  · have hnot : ¬(f.inChoice = true ∧ f.restrictions.choice ∈ m :: done) := fun ⟨hchoice, hmem⟩ =>
      (List.mem_cons.mp hmem).elim (fun heq => hjoins (Field.joins_eq_true.mpr ⟨hchoice, heq⟩))
        fun hmem => hdone ⟨hchoice, hmem⟩
    rw [placeStaged_of_not hdone, placeStaged_of_not hnot]
    exact placeMerged_of_not_mem (mt (mem_choicePlaces_iff hf).mp hjoins) new

-- ---------------------------------------------------------------------------
-- All merges
-- ---------------------------------------------------------------------------

/-- A field is the compound of a choice, and its name has not been in use among the inherited fields. -/
def IsCompound (inherited : List Field → List Field) (fs : List Field) (m : Int) (g : Field) : Prop :=
  ∃ name current, g = compoundField name m (choiceMembers fs m) ∧
    Name.key name ∉ (inherited current).map (Name.key ·.name)

/-- Merging choices one after the other merges all of them. -/
theorem foldl_mergeChoice (c : CompoundConfig) (inherited : List Field → List Field)
    (hmarks : marks.Nodup) (hdone : ∀ m ∈ marks, m ∉ done)
    (hsome : ∀ m ∈ marks, choicePlaces fs m ≠ []) (merged : Int → Field) : ∃ merged' : Int → Field,
    (marks.map fun m => (m, choicePlaces fs m)).foldl (mergeChoice c inherited) (staged fs merged done) =
      staged fs merged' (marks.reverse ++ done) ∧
    (∀ m ∉ marks, merged' m = merged m) ∧ (∀ m ∈ marks, IsCompound inherited fs m (merged' m)) ∧
    (Apart (staged fs merged done) → Apart (staged fs merged' (marks.reverse ++ done))) := by
  induction marks generalizing done merged with
  | nil => exact ⟨merged, rfl, fun _ _ => rfl, fun _ hm => absurd hm List.not_mem_nil, id⟩
  | cons m marks ih =>
    obtain ⟨hm, hmarks⟩ := List.nodup_cons.mp hmarks
    obtain ⟨hmdone, hdone⟩ := List.forall_mem_cons.mp hdone
    obtain ⟨hmsome, hsome⟩ := List.forall_mem_cons.mp hsome
    obtain ⟨name, hmerge, hothers, hinherited⟩ :=
      mergeChoice_eq c inherited m (staged fs merged done) (choicePlaces fs m)
    rw [members_staged hmdone] at hmerge
    have hapart := apart_merge (compoundField name m (choiceMembers fs m))
      (places_staged fs merged done) hmsome hothers
    rw [merge_staged hmdone hmsome] at hmerge hapart
    have hdone' : ∀ m' ∈ marks, m' ∉ m :: done := fun m' hm' hmem =>
      (List.mem_cons.mp hmem).elim (fun heq => hm (heq ▸ hm')) (hdone m' hm')
    obtain ⟨merged', hfold, hkept, hnew, hrest⟩ := ih hmarks hdone' hsome
      (Function.update merged m (compoundField name m (choiceMembers fs m)))
    rw [List.reverse_cons, List.append_assoc, List.singleton_append]
    refine ⟨merged', ?_, fun m' hm' => ?_, List.forall_mem_cons.mpr ⟨?_, hnew⟩, hrest ∘ hapart⟩
    · rw [List.map_cons, List.foldl_cons, hmerge, hfold]
    · obtain ⟨hne, hm'⟩ := not_or.mp (mt List.mem_cons.mpr hm')
      rw [hkept m' hm', Function.update_of_ne hne]
    · exact ⟨name, _, (hkept m hm).trans (Function.update_self ..), hinherited⟩

/-- What becomes of the field at a position when all choices with several members are merged. -/
def placeCompound (fs : List Field) (merged : Int → Field) (p : Field × Nat) : Option Field :=
  if p.1.inChoice = true ∧ 2 ≤ (choiceMembers fs p.1.restrictions.choice).length then
    if fs.findIdx? (·.joins p.1.restrictions.choice) = some p.2 then some (merged p.1.restrictions.choice)
    else none
  else some p.1

theorem map_fst_staged (fs : List Field) (merged : Int → Field) (hdone : ∀ m, m ∈ done ↔ m ∈ choiceMarkers fs) :
    (staged fs merged done).map (·.1) = fs.zipIdx.filterMap (placeCompound fs merged) := by
  rw [staged, List.map_filterMap]
  refine List.filterMap_congr fun p _ => ?_
  simp only [placeStaged, placeCompound, hdone, mem_choiceMarkers_iff]
  split
  · split <;> rfl
  · rfl

/-- Every choice with several members becomes a compound, and what was apart stays apart. -/
theorem SchemaType.compound_eq (t : SchemaType) (c : CompoundConfig) (inherited : List Field → List Field) :
    ∃ merged : Int → Field,
      t.compound c inherited =
        { t with fields := t.fields.zipIdx.filterMap (placeCompound t.fields merged) } ∧
      (∀ m, 2 ≤ (choiceMembers t.fields m).length → IsCompound inherited t.fields m (merged m)) ∧
      ((t.fields.map (Name.key ·.name)).Nodup →
        ((t.compound c inherited).fields.map (Name.key ·.name)).Nodup) := by
  have hmem : ∀ m, m ∈ (choiceMarkers t.fields).reverse ++ [] ↔ m ∈ choiceMarkers t.fields := by simp
  have hsome : ∀ m ∈ choiceMarkers t.fields, choicePlaces t.fields m ≠ [] := by
    intro m hm hnil
    rw [mem_choiceMarkers_iff, ← length_choicePlaces, hnil] at hm
    exact absurd hm (by decide)
  have hnone : ∀ m ∈ choiceMarkers t.fields, m ∉ ([] : List Int) := fun _ _ => List.not_mem_nil
  obtain ⟨merged, hfold, -, hnew, hapart⟩ :=
    foldl_mergeChoice c inherited (nodup_choiceMarkers t.fields) hnone hsome fun _ => {}
  have heq : (t.compound c inherited).fields =
      (staged t.fields merged ((choiceMarkers t.fields).reverse ++ [])).map (·.1) := by
    rw [← hfold, ← choiceGroups_eq, staged_nil]
    rfl
  refine ⟨merged, ?_, fun m hm => hnew m (mem_choiceMarkers_iff.mpr hm), fun hkeys => ?_⟩
  · rw [← map_fst_staged t.fields merged hmem, ← heq]
    rfl
  · rw [heq, List.map_map]
    refine List.pairwise_map.mpr (hapart ?_)
    rw [← List.zipIdx_map_fst 0 t.fields, List.map_map] at hkeys
    rw [staged_nil]
    exact List.pairwise_map.mpr (List.pairwise_map.mp hkeys)

/-- Compounds take the places of the choices with several members and hold these as choices under
their own names; the other fields stay as they are. Names that are apart stay apart. -/
theorem Store.compoundFields_groups {s : Store} (henabled : s.config.compoundFields.enabled = true)
    (t : SchemaType) : ∃ merged : Int → Field,
      s.compoundFields t =
        { t with fields := t.fields.zipIdx.filterMap (placeCompound t.fields merged) } ∧
      (∀ m, 2 ≤ (choiceMembers t.fields m).length → (merged m).tag = .choice ∧
        (merged m).choices = (choiceMembers t.fields m).map (fun f => { f with
          name := f.declaredName
          restrictions := { f.restrictions with choice := 0, sequence := 0, group := 0, path := [] } }) ∧
        ∃ name, merged m = compoundField name m (choiceMembers t.fields m)) ∧
      ((t.fields.map (Name.key ·.name)).Nodup →
        ((s.compoundFields t).fields.map (Name.key ·.name)).Nodup) := by
  obtain ⟨merged, heq, hnew, hkeys⟩ := t.compound_eq s.config.compoundFields (s.baseFields t)
  rw [Store.compoundFields, if_pos henabled]
  refine ⟨merged, heq, fun m hm => ?_, hkeys⟩
  obtain ⟨name, -, hcompound, -⟩ := hnew m hm
  rw [hcompound]
  exact ⟨rfl, rfl, name, rfl⟩

-- ---------------------------------------------------------------------------
-- Two choices that are mixed
-- ---------------------------------------------------------------------------

namespace MixedChoices

def store : Store :=
  { config.compoundFields := { enabled := true } }

/-- A type with two choices in turn, an attribute and a choice of one field. -/
def type : SchemaType :=
  let field := fun name choice => ({ name, restrictions.choice := choice } : Field)
  { fields := [field "a" 1, field "x" 0, field "b" 2, field "c" 1, { field "d" 1 with tag := .attr },
      field "e" 2, field "f" 3, field "a_Or_c" 0] }

theorem compoundFields_mixed : store.config.compoundFields.enabled = true ∧
    (type.fields.map (Name.key ·.name)).Nodup ∧
    ((store.compoundFields type).fields.map (Name.key ·.name)).Nodup ∧
    (store.compoundFields type).fields.map (·.name) = ["a_Or_c_1", "x", "b_Or_e", "d", "f", "a_Or_c"] := by
  obtain ⟨-, -, -, hkeys⟩ := Store.compoundFields_groups (s := store) rfl type
  have hapart : (type.fields.map (Name.key ·.name)).Nodup := by decide
  exact ⟨rfl, hapart, hkeys hapart, by decide +kernel⟩

end MixedChoices

end Schemata
