import Mathlib.Data.List.Forall2
import Mathlib.Data.List.Nodup
import Schemata.Proofs.Name.Segments
import Schemata.Proofs.Output.Resolution
import Schemata.Proofs.Text.Case

/-!
# Names of imports

Which imports get aliases, and how far that makes the names of a module's imports distinct. A name
is kept exactly if, ignoring case, no other import has it and it is not protected. The aliases are
distinct from each other and from the protected names. They may still be the names of imports that
keep theirs, and this is the only way in which names still collide.
-/

namespace Schemata

namespace Imports

variable {imports : List Import} {reserved : List String} {n : Nat}

/-- The import at a place has an alias. -/
def Aliased (imports : List Import) (n : Nat) : Prop :=
  ∃ i, imports[n]? = some i ∧ i.aliasName ≠ none

/-- The local name of the import at a place, ignoring case. -/
def Named (imports : List Import) (n : Nat) (key : String) : Prop :=
  ∃ i, imports[n]? = some i ∧ Text.lower i.qname.name = key

-- ---------------------------------------------------------------------------
-- Which imports get aliases
-- ---------------------------------------------------------------------------

theorem aliased_modify {g : Import → Import} (hg : ∀ i, (g i).aliasName ≠ none) (m : Nat) :
    Aliased (imports.modify m g) n ↔ Aliased imports n ∨ n = m ∧ n < imports.length := by
  unfold Aliased
  rw [List.getElem?_modify]
  by_cases hn : n < imports.length
  · rw [List.getElem?_eq_getElem hn]
    by_cases hm : m = n
    · simp [hm, hg, hn]
    · simp [hm, Ne.symm hm]
  · rw [List.getElem?_eq_none (Nat.le_of_not_lt hn)]
    simp [hn]

theorem length_distinctEnds (group : List Import) : (distinctEnds group).length = group.length := by
  unfold distinctEnds
  dsimp only
  split <;> simp

theorem length_eq_of_map_target {xs ys : List Import} (h : xs.map Import.target = ys.map Import.target) :
    xs.length = ys.length := by
  simpa using congrArg List.length h

/-- Every place of a group gets an alias. -/
theorem aliased_aliasGroup {places : List Nat} (hplaces : ∀ m ∈ places, m < imports.length) :
    Aliased (aliasGroup imports places) n ↔ Aliased imports n ∨ n ∈ places := by
  -- the ends are as many as the places
  have hlength : (places.filterMap fun m => imports[m]?).length = places.length := by
    rw [List.length_filterMap_eq_countP, List.countP_eq_length]
    intro m hm
    simp [hplaces m hm]
  have hfst : (places.zip (distinctEnds (places.filterMap fun m => imports[m]?))).map Prod.fst = places := by
    rw [List.map_fst_zip]
    rw [length_distinctEnds, hlength]
  unfold aliasGroup
  dsimp only
  generalize places.zip _ = pairs at hfst ⊢
  subst hfst
  clear hlength
  induction pairs generalizing imports with
  | nil => simp
  | cons pair pairs ih =>
    have hlt : pair.1 < imports.length := hplaces pair.1 (by simp)
    rw [List.foldl_cons, List.map_cons, List.mem_cons]
    refine (ih fun m hm => ?_).trans ?_
    · rw [List.length_modify]
      exact hplaces m (List.mem_cons_of_mem _ hm)
    rw [aliased_modify (by simp)]
    constructor
    · rintro ((h | ⟨rfl, -⟩) | h)
      · exact .inl h
      · exact .inr (.inl rfl)
      · exact .inr (.inr h)
    · rintro (h | rfl | h)
      · exact .inl (.inl h)
      · exact .inl (.inr ⟨rfl, hlt⟩)
      · exact .inr h

theorem aliased_aliasSingle (m : Nat) :
    Aliased (aliasSingle imports m) n ↔ Aliased imports n ∨ n = m ∧ n < imports.length :=
  aliased_modify (by simp) m

/-- The places of the imports with a key. -/
def placesOf (imports : List Import) (key : String) : List Nat :=
  ((imports.zipIdx.map fun (i, n) => (Text.lower i.qname.name, n)).filter (·.1 == key)).map (·.2)

theorem mem_placesOf_iff {key : String} : n ∈ placesOf imports key ↔ Named imports n key := by
  simp only [placesOf, Named, List.mem_map, List.mem_filter, beq_iff_eq, Prod.exists,
    List.mem_zipIdx_iff_getElem?]
  constructor
  · rintro ⟨key', m, ⟨⟨i, k, hi, heq⟩, hkey⟩, rfl⟩
    obtain ⟨rfl, rfl⟩ := Prod.mk.inj heq
    exact ⟨i, hi, hkey⟩
  · rintro ⟨i, hi, hkey⟩
    exact ⟨_, n, ⟨⟨i, n, hi, rfl⟩, hkey⟩, rfl⟩

theorem nodup_placesOf (imports : List Import) (key : String) : (placesOf imports key).Nodup := by
  have hsub : (placesOf imports key).Sublist (List.range imports.length) := by
    have hkeyed : (imports.zipIdx.map fun (i, n) => (Text.lower i.qname.name, n)).map (·.2) =
        List.range imports.length := by
      simp [List.map_map, Function.comp_def, List.range_eq_range']
    rw [← hkeyed]
    exact (List.filter_sublist).map _
  exact hsub.nodup List.nodup_range

/-- A second place of a key. -/
def Shared (imports : List Import) (n : Nat) (key : String) : Prop :=
  ∃ m ≠ n, Named imports m key

/-- The turn of one key. -/
def giveAlias (reserved : List String) (places : List Nat) (key : String) (imports : List Import) : List Import :=
  match places with
  | [m] => if reserved.contains key then aliasSingle imports m else imports
  | places => aliasGroup imports places

theorem giveAliases_eq (reserved : List String) (imports : List Import) :
    giveAliases reserved imports =
      (imports.map fun i => Text.lower i.qname.name).eraseDups.foldl
        (fun given key => giveAlias reserved (placesOf imports key) key given) imports := by
  have hkeys : (imports.zipIdx.map fun (i, n) => (Text.lower i.qname.name, n)).map (·.1) =
      imports.map fun i => Text.lower i.qname.name := by
    conv => rhs; rw [← List.zipIdx_map_fst 0 imports, List.map_map]
    rw [List.map_map]
    rfl
  rw [giveAliases]
  dsimp only
  rw [hkeys]
  rfl

theorem aliased_giveAlias {key : String} {given : List Import} (hlength : given.length = imports.length) :
    Aliased (giveAlias reserved (placesOf imports key) key given) n ↔
      Aliased given n ∨ Named imports n key ∧ (key ∈ reserved ∨ Shared imports n key) := by
  have hlt : ∀ m ∈ placesOf imports key, m < given.length := by
    intro m hm
    obtain ⟨i, hi, -⟩ := mem_placesOf_iff.mp hm
    rw [hlength]
    exact (List.getElem?_eq_some_iff.mp hi).1
  have hnodup := nodup_placesOf imports key
  simp only [Shared, ← mem_placesOf_iff]
  unfold giveAlias
  generalize placesOf imports key = places at hlt hnodup
  split
  next m =>
    have hm : m < given.length := hlt m (by simp)
    split
    case isTrue hkey =>
      rw [aliased_aliasSingle]
      have := List.contains_iff_mem.mp hkey
      grind
    case isFalse hkey =>
      have := mt List.contains_iff_mem.mpr hkey
      grind
  next hmany =>
    rw [aliased_aliasGroup hlt]
    -- there are at least two places, and they differ
    have hother : n ∈ places → ∃ m, m ≠ n ∧ m ∈ places := by
      match places, hmany, hnodup with
      | [], _, _ => exact fun hn => absurd hn List.not_mem_nil
      | [m], hmany, _ => exact absurd rfl (hmany m)
      | a :: b :: rest, _, hnodup =>
        intro _
        have hne : a ≠ b := fun heq => (List.nodup_cons.mp hnodup).1 (heq ▸ List.mem_cons_self)
        by_cases ha : a = n
        · exact ⟨b, fun hb => hne (ha.trans hb.symm), by simp⟩
        · exact ⟨a, ha, by simp⟩
    grind

theorem map_target_giveAlias (places : List Nat) (key : String) :
    (giveAlias reserved places key imports).map Import.target = imports.map Import.target := by
  unfold giveAlias
  split
  · split
    · exact map_target_aliasSingle imports _
    · rfl
  · exact map_target_aliasGroup imports _

theorem aliased_foldl_giveAlias (keys : List String) {given : List Import}
    (hlength : given.length = imports.length) :
    Aliased (keys.foldl (fun given key => giveAlias reserved (placesOf imports key) key given) given) n ↔
      Aliased given n ∨ ∃ key ∈ keys, Named imports n key ∧ (key ∈ reserved ∨ Shared imports n key) := by
  induction keys generalizing given with
  | nil => simp
  | cons key keys ih =>
    have hturn : (giveAlias reserved (placesOf imports key) key given).length = imports.length :=
      (length_eq_of_map_target (map_target_giveAlias _ _)).trans hlength
    rw [List.foldl_cons, ih hturn, aliased_giveAlias hlength]
    simp only [List.mem_cons, exists_eq_or_imp, or_assoc]

/-- An import gets an alias if its name is reserved or another import has it. -/
theorem aliased_giveAliases (hbare : ∀ i ∈ imports, i.aliasName = none) :
    Aliased (giveAliases reserved imports) n ↔
      ∃ key, Named imports n key ∧ (key ∈ reserved ∨ Shared imports n key) := by
  rw [giveAliases_eq, aliased_foldl_giveAlias _ rfl]
  constructor
  · rintro (⟨i, hi, halias⟩ | ⟨key, -, hkey⟩)
    · exact absurd (hbare i (List.mem_of_getElem? hi)) halias
    · exact ⟨key, hkey⟩
  · rintro ⟨key, ⟨i, hi, hkey⟩, hwhy⟩
    refine .inr ⟨key, ?_, ⟨i, hi, hkey⟩, hwhy⟩
    exact List.mem_eraseDups.mpr (List.mem_map.mpr ⟨i, List.mem_of_getElem? hi, hkey⟩)

-- ---------------------------------------------------------------------------
-- What the aliases are
-- ---------------------------------------------------------------------------

/-- The second round gives no alias to an import without one and takes none away. -/
theorem forall₂_separateAliases (reserved : List String) (imports : List Import) :
    List.Forall₂ (fun r i => r.target = i.target ∧ (r.aliasName = none ↔ i.aliasName = none))
      (separateAliases reserved imports) imports := by
  induction imports generalizing reserved with
  | nil => exact .nil
  | cons i imports ih =>
    unfold separateAliases
    split
    · exact .cons ⟨rfl, Iff.rfl⟩ (ih _)
    next given halias =>
      split
      · exact .cons ⟨rfl, by simp [halias]⟩ (ih _)
      · exact .cons ⟨rfl, Iff.rfl⟩ (ih _)

/-- The aliases of a list of imports, ignoring case. -/
def aliases (imports : List Import) : List String :=
  imports.filterMap fun i => i.aliasName.map Text.lower

theorem aliases_cons {i : Import} {given : String} (halias : i.aliasName = some given) (rest : List Import) :
    aliases (i :: rest) = Text.lower given :: aliases rest := by
  simp [aliases, halias]

/-- `nextFree` avoids the keys of the reserved names, and so, by `key_lower`, these names themselves. -/
theorem lower_nextFree_not_mem (given : String) (reserved : List String) :
    Text.lower (Name.nextFree given (reserved.map Name.key)).1 ∉ reserved := by
  intro hmem
  apply Name.key_nextFree_not_mem given (reserved.map Name.key)
  exact List.mem_map.mpr ⟨_, hmem, Name.key_lower _⟩

/-- The aliases are distinct and none is reserved. -/
theorem aliases_separateAliases (reserved : List String) (imports : List Import) :
    (aliases (separateAliases reserved imports)).Nodup ∧
      ∀ a ∈ aliases (separateAliases reserved imports), a ∉ reserved := by
  induction imports generalizing reserved with
  | nil => simp [separateAliases, aliases]
  | cons i imports ih =>
    unfold separateAliases
    split
    next halias => simpa [aliases, halias] using ih reserved
    next given halias =>
      split
      case isTrue =>
        have hfree := lower_nextFree_not_mem given reserved
        obtain ⟨hnodup, havoid⟩ := ih (Text.lower (Name.nextFree given (reserved.map Name.key)).1 :: reserved)
        rw [aliases_cons rfl]
        grind
      case isFalse hfree =>
        obtain ⟨hnodup, havoid⟩ := ih (Text.lower given :: reserved)
        rw [aliases_cons halias]
        have := mt List.contains_iff_mem.mpr hfree
        grind

/-- Every alias has an underscore. -/
def Marked (imports : List Import) : Prop :=
  ∀ i ∈ imports, ∀ given, i.aliasName = some given → '_' ∈ given.toList

theorem Marked.modify {g : Import → Import}
    (hg : ∀ i given, (g i).aliasName = some given → '_' ∈ given.toList) (h : Marked imports) (m : Nat) :
    Marked (imports.modify m g) := by
  intro i hi given halias
  obtain ⟨n, hn⟩ := List.mem_iff_getElem?.mp hi
  rw [List.getElem?_modify] at hn
  obtain ⟨i', hi', rfl⟩ := Option.map_eq_some_iff.mp hn
  split at halias
  · exact hg i' given halias
  · exact h i' (List.mem_of_getElem? hi') given halias

theorem underscore_mem_joined (start name : String) : '_' ∈ (start ++ "_" ++ name).toList := by
  simp [String.toList_append]

theorem Marked.aliasGroup (h : Marked imports) (places : List Nat) : Marked (aliasGroup imports places) := by
  unfold Imports.aliasGroup
  dsimp only
  generalize places.zip _ = pairs
  induction pairs generalizing imports with
  | nil => exact h
  | cons pair pairs ih =>
    refine ih (h.modify ?_ _)
    intro i given halias
    rw [← Option.some.inj halias]
    exact underscore_mem_joined _ _

theorem Marked.giveAlias (h : Marked imports) (places : List Nat) (key : String) :
    Marked (giveAlias reserved places key imports) := by
  unfold Imports.giveAlias
  split
  · split
    · refine h.modify ?_ _
      intro i given halias
      rw [← Option.some.inj halias]
      exact underscore_mem_joined _ _
    · exact h
  · exact h.aliasGroup _

theorem Marked.giveAliases (h : Marked imports) : Marked (giveAliases reserved imports) := by
  rw [giveAliases_eq]
  generalize (imports.map fun i => Text.lower i.qname.name).eraseDups = keys
  generalize placesOf imports = places
  induction keys generalizing imports with
  | nil => exact h
  | cons key keys ih => exact ih (h.giveAlias _ _)

theorem Marked.separateAliases (h : Marked imports) (reserved : List String) :
    Marked (separateAliases reserved imports) := by
  induction imports generalizing reserved with
  | nil => exact h
  | cons i imports ih =>
    have hrest : Marked imports := fun i hi => h i (List.mem_cons_of_mem _ hi)
    unfold Imports.separateAliases
    split
    next => exact List.forall_mem_cons.mpr ⟨h i List.mem_cons_self, ih hrest _⟩
    next given halias =>
      split
      · refine List.forall_mem_cons.mpr ⟨fun free hfree => ?_, ih hrest _⟩
        obtain ⟨m, heq, -⟩ := Name.freeFrom_eq given (reserved.map Name.key) (reserved.map Name.key).length 1
        have hnumbered : free = Name.numbered given m := (Option.some.inj hfree).symm.trans heq
        rw [hnumbered]
        exact underscore_mem_joined _ _
      · exact List.forall_mem_cons.mpr ⟨h i List.mem_cons_self, ih hrest _⟩

-- ---------------------------------------------------------------------------
-- Names
-- ---------------------------------------------------------------------------

/-- The names of the imports are distinct, ignoring case, and none of them is protected. -/
def Usable (imports : List Import) (protectedNames : List String) : Prop :=
  (imports.map fun i => Text.lower i.name).Nodup ∧
    ∀ i ∈ imports, Text.lower i.name ∉ protectedNames.map Text.lower

instance (imports : List Import) (protectedNames : List String) : Decidable (Usable imports protectedNames) :=
  inferInstanceAs (Decidable (_ ∧ _))

/-- No alias is, ignoring case, the name of an import that has none. -/
def AliasesApart (imports : List Import) : Prop :=
  ∀ i ∈ imports, ∀ j ∈ imports, i.aliasName ≠ none → j.aliasName = none → Text.lower i.name ≠ Text.lower j.name

section

variable {protectedNames : List String}

theorem named_congr {xs ys : List Import} (h : xs.map Import.target = ys.map Import.target) {key : String} :
    Named xs n key ↔ Named ys n key := by
  have hkeys : ∀ zs : List Import, Named zs n key ↔ ((zs.map Import.target)[n]?.map fun t => Text.lower t.1.name) = some key := by
    intro zs
    simp [Named, Import.target, Function.comp_def]
  rw [hkeys, hkeys, h]

/-- An import gets an alias exactly if its name is protected or another import has it. -/
theorem aliased_resolveConflicts (hbare : ∀ i ∈ imports, i.aliasName = none) :
    Aliased (resolveConflicts imports protectedNames) n ↔
      ∃ key, Named imports n key ∧ (key ∈ protectedNames.map Text.lower ∨ Shared imports n key) := by
  rw [← aliased_giveAliases hbare]
  have hsame := forall₂_separateAliases (protectedNames.map Text.lower)
    (giveAliases (protectedNames.map Text.lower) imports)
  unfold Aliased resolveConflicts
  dsimp only
  generalize separateAliases _ _ = result at hsame ⊢
  generalize giveAliases _ _ = given at hsame ⊢
  induction hsame generalizing n with
  | nil => simp
  | cons hhead _ ih =>
    cases n with
    | zero => simp [hhead.2]
    | succ n => simpa using ih

/-- An import that keeps its name has it for itself, and it is not protected. -/
theorem kept_of_resolveConflicts (hbare : ∀ i ∈ imports, i.aliasName = none) {r : Import}
    (hr : (resolveConflicts imports protectedNames)[n]? = some r) (hkept : r.aliasName = none) :
    Text.lower r.name ∉ protectedNames.map Text.lower ∧
      ¬ Shared (resolveConflicts imports protectedNames) n (Text.lower r.name) := by
  have htargets := map_target_resolveConflicts imports protectedNames
  have hname : r.name = r.qname.name := by simp [Import.name, hkept]
  have hnone : ¬ Aliased (resolveConflicts imports protectedNames) n := by
    rintro ⟨r', hr', halias⟩
    rw [hr] at hr'
    exact halias (Option.some.inj hr' ▸ hkept)
  rw [aliased_resolveConflicts hbare, not_exists] at hnone
  have hfree := hnone (Text.lower r.qname.name)
  rw [← named_congr htargets, not_and_or, not_or] at hfree
  obtain ⟨hprotected, hshared⟩ := hfree.resolve_left fun h => h ⟨r, hr, rfl⟩
  rw [hname]
  refine ⟨hprotected, ?_⟩
  rintro ⟨m, hm, hnamed⟩
  exact hshared ⟨m, hm, (named_congr htargets).mp hnamed⟩

theorem mem_aliases {i : Import} {given : String} (hi : i ∈ imports) (halias : i.aliasName = some given) :
    Text.lower i.name ∈ aliases imports :=
  List.mem_filterMap.mpr ⟨i, hi, by simp [Import.name, halias]⟩

/-- No import is called by a protected name. -/
theorem resolveConflicts_avoids (hbare : ∀ i ∈ imports, i.aliasName = none) :
    ∀ r ∈ resolveConflicts imports protectedNames, Text.lower r.name ∉ protectedNames.map Text.lower := by
  intro r hr
  cases halias : r.aliasName with
  | none =>
    obtain ⟨n, hn⟩ := List.mem_iff_getElem?.mp hr
    exact (kept_of_resolveConflicts hbare hn halias).1
  | some given =>
    exact (aliases_separateAliases _ _).2 _ (mem_aliases hr halias)

/-- Imports that keep their names have different names. -/
theorem pairwise_kept (hbare : ∀ i ∈ imports, i.aliasName = none) :
    (resolveConflicts imports protectedNames).Pairwise fun r s =>
      r.aliasName = none → s.aliasName = none → Text.lower r.name ≠ Text.lower s.name := by
  refine List.pairwise_iff_getElem.mpr fun m n hm hn hlt hr hs heq => ?_
  have hshared := (kept_of_resolveConflicts hbare (List.getElem?_eq_getElem hm) hr).2
  refine hshared ⟨n, Nat.ne_of_gt hlt, _, List.getElem?_eq_getElem hn, ?_⟩
  rw [heq, Import.name, hs, Option.getD_none]

/-- Imports that have aliases have different names. -/
theorem pairwise_aliased (imports : List Import) (protectedNames : List String) :
    (resolveConflicts imports protectedNames).Pairwise fun r s =>
      r.aliasName ≠ none → s.aliasName ≠ none → Text.lower r.name ≠ Text.lower s.name := by
  have haliases := (aliases_separateAliases (protectedNames.map Text.lower)
    (giveAliases (protectedNames.map Text.lower) imports)).1
  rw [aliases, List.Nodup, List.pairwise_filterMap] at haliases
  refine haliases.imp fun {r s} hne hr hs => ?_
  obtain ⟨a, ha⟩ := Option.ne_none_iff_exists'.mp hr
  obtain ⟨b, hb⟩ := Option.ne_none_iff_exists'.mp hs
  simpa [Import.name, ha, hb] using hne

/-- Names are usable as far as no alias is the name of an import that has none. -/
theorem usable_iff_aliasesApart (hbare : ∀ i ∈ imports, i.aliasName = none) :
    Usable (resolveConflicts imports protectedNames) protectedNames ↔
      AliasesApart (resolveConflicts imports protectedNames) := by
  constructor
  · rintro ⟨hnodup, -⟩ i hi j hj hgiven hkept heq
    obtain rfl := List.inj_on_of_nodup_map hnodup hi hj heq
    exact hgiven hkept
  · refine fun hapart => ⟨?_, resolveConflicts_avoids hbare⟩
    have hboth := (pairwise_kept hbare).and (pairwise_aliased imports protectedNames)
    rw [List.Nodup, List.pairwise_map]
    refine hboth.imp_of_mem fun {r s} hr hs h => ?_
    by_cases hrk : r.aliasName = none <;> by_cases hsk : s.aliasName = none
    · exact h.1 hrk hsk
    · exact (hapart s hs r hr hsk hrk).symm
    · exact hapart r hr s hs hrk hsk
    · exact h.2 hrk hsk

/-- Names without underscores are never those of aliases. -/
theorem aliasesApart_of_no_underscore (hbare : ∀ i ∈ imports, i.aliasName = none)
    (hplain : ∀ i ∈ imports, '_' ∉ i.qname.name.toList) :
    AliasesApart (resolveConflicts imports protectedNames) := by
  have hmarked : Marked (resolveConflicts imports protectedNames) := by
    have hnone : Marked imports := fun i hi given halias => by simp [hbare i hi] at halias
    exact hnone.giveAliases.separateAliases _
  intro i hi j hj hgiven hkept heq
  obtain ⟨given, halias⟩ := Option.ne_none_iff_exists'.mp hgiven
  have htarget : j.target ∈ imports.map Import.target := by
    rw [← map_target_resolveConflicts imports protectedNames]
    exact List.mem_map_of_mem hj
  obtain ⟨j', hj', heq'⟩ := List.mem_map.mp htarget
  apply hplain j' hj'
  have hqname : j'.qname = j.qname := congrArg Prod.fst heq'
  rw [hqname, ← Text.underscore_mem_lower_iff]
  have hname : j.name = j.qname.name := by simp [Import.name, hkept]
  rw [← hname, ← heq, Text.underscore_mem_lower_iff, Import.name, halias]
  exact hmarked i hi given halias

/-- Resolving conflicts keeps what the imports are about and names none of them like a protected
name. Their names are then usable exactly if no alias is the name of an import that keeps its own,
which is so if no local name has an underscore. -/
theorem resolveConflicts_usable_iff (imports : List Import) (protectedNames : List String)
    (hbare : ∀ i ∈ imports, i.aliasName = none) :
    (resolveConflicts imports protectedNames).map Import.target = imports.map Import.target ∧
      (∀ r ∈ resolveConflicts imports protectedNames, Text.lower r.name ∉ protectedNames.map Text.lower) ∧
      (Usable (resolveConflicts imports protectedNames) protectedNames ↔
        AliasesApart (resolveConflicts imports protectedNames)) ∧
      ((∀ i ∈ imports, '_' ∉ i.qname.name.toList) →
        Usable (resolveConflicts imports protectedNames) protectedNames) :=
  ⟨map_target_resolveConflicts imports protectedNames, resolveConflicts_avoids hbare,
    usable_iff_aliasesApart hbare,
    fun hplain => (usable_iff_aliasesApart hbare).mpr (aliasesApart_of_no_underscore hbare hplain)⟩

end

-- ---------------------------------------------------------------------------
-- Two cases
-- ---------------------------------------------------------------------------

namespace Segments

/-- Two imports of one name, and one with a name that the module has itself. -/
def crossing : List Import :=
  [⟨⟨"urn:a", "Item"⟩, "generated.a", none⟩, ⟨⟨"urn:b", "item"⟩, "generated.b", none⟩,
    ⟨⟨"urn:c", "Order"⟩, "generated.c", none⟩]

theorem crossing_usable :
    (resolveConflicts crossing ["order"]).map Import.name = ["a_Item", "b_item", "c_Order"] ∧
      (resolveConflicts crossing ["order"]).map Import.target = crossing.map Import.target ∧
      Usable (resolveConflicts crossing ["order"]) ["order"] := by
  have h := resolveConflicts_usable_iff crossing ["order"] (by decide)
  exact ⟨by decide, h.1, h.2.2.2 (by decide)⟩

/-- Two imports of one name, and one whose own name is the alias that the first is given. -/
def prefixed : List Import :=
  [⟨⟨"urn:a", "Item"⟩, "generated.a", none⟩, ⟨⟨"urn:b", "Item"⟩, "generated.b", none⟩,
    ⟨⟨"urn:c", "a_Item"⟩, "generated.c", none⟩]

/-- The alias is taken although an import that keeps its name has it. -/
theorem prefixed_not_usable :
    (∀ i ∈ prefixed, i.aliasName = none) ∧ (prefixed.map Import.qname).Nodup ∧
      (resolveConflicts prefixed []).map Import.name = ["a_Item", "b_Item", "a_Item"] ∧
      ¬ Usable (resolveConflicts prefixed []) [] := by
  decide

end Segments

end Imports

end Schemata
