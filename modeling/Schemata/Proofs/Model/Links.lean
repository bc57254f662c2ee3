import Schemata.Binding.Circular
import Schemata.Choice.Compound
import Schemata.Content.Markers
import Schemata.Inherit.Overrides
import Schemata.Proofs.Content.Sequences
import Schemata.Proofs.Lists
import Schemata.Proofs.Model.Changes
import Schemata.Unique.FieldNames
import Schemata.Unique.TypeNames

/-!
# Links

A link is what a reference that is not native binds: a handle under a name, forward or not. Most
changes of a type leave its links as they are or drop some, whatever they do to its fields otherwise.
-/

namespace Schemata

/-- What a reference binds. -/
structure Link where
  forward : Bool
  target : Handle
  qname : QName
deriving DecidableEq

/-- The link after the type with a handle got another name. -/
def Link.follow (h : Handle) (q : QName) (l : Link) : Link :=
  if l.target = h then { l with qname := q } else l

def FieldType.link? (ft : FieldType) : Option Link :=
  if ft.native then none else some ⟨ft.forward, ft.reference, ft.qname⟩

/-- The links of a field and of its choices. -/
def Field.links (f : Field) : List Link :=
  f.allTypes.filterMap FieldType.link?

/-- The links of the type itself. -/
def SchemaType.links (t : SchemaType) : List Link :=
  t.fieldTypes.filterMap FieldType.link?

namespace Field

theorem links_eq (f : Field) :
    f.links = f.types.filterMap FieldType.link? ++ f.choices.flatMap links := by
  change f.allTypes.filterMap FieldType.link? = _
  rw [allTypes_eq, allTypesOf_eq_flatMap, List.filterMap_append, List.filterMap_flatMap]
  rfl

/-- Links are a matter of types and choices. -/
theorem links_congr {f g : Field} (htypes : g.types = f.types)
    (hchoices : g.choices.map links = f.choices.map links) : g.links = f.links := by
  rw [links_eq, links_eq, htypes, List.flatMap_def, List.flatMap_def, hchoices]

theorem links_subset {f g : Field} (htypes : g.types = f.types) (hchoices : g.choices = f.choices) :
    g.links ⊆ f.links :=
  List.Perm.subset (.of_eq (links_congr htypes (congrArg (List.map links) hchoices)))

@[simp] theorem links_rename (f : Field) (name : String) : (f.rename name).links = f.links :=
  links_congr rfl rfl

theorem map_links_modify {fs : List Field} {i : Nat} {g : Field → Field}
    (hg : ∀ f, (g f).links = f.links) : (fs.modify i g).map links = fs.map links := by
  refine List.ext_getElem? fun j => ?_
  rw [List.getElem?_map, List.getElem?_map, List.getElem?_modify]
  cases fs[j]? with
  | none => rfl
  | some f =>
    by_cases hij : i = j
    · simp [hij, hg f]
    · simp [hij]

theorem flatMap_links_modify_subset {fs : List Field} {i : Nat} {g : Field → Field}
    (hg : ∀ f, (g f).links ⊆ f.links) : (fs.modify i g).flatMap links ⊆ fs.flatMap links := by
  intro l hl
  obtain ⟨f, hf, hl⟩ := List.mem_flatMap.mp hl
  obtain ⟨j, hj⟩ := List.mem_iff_getElem?.mp hf
  rw [List.getElem?_modify] at hj
  cases hold : fs[j]? with
  | none => simp [hold] at hj
  | some f₀ =>
    have hmem := List.mem_of_getElem? hold
    rw [hold, Option.map_eq_map, Option.map_some] at hj
    split at hj
    · obtain rfl := Option.some.inj hj
      exact List.mem_flatMap.mpr ⟨f₀, hmem, hg f₀ hl⟩
    · obtain rfl := Option.some.inj hj
      exact List.mem_flatMap.mpr ⟨_, hmem, hl⟩

theorem links_modifyChoice_subset {i : Nat} {g : Field → Field} (hg : ∀ f, (g f).links ⊆ f.links)
    (f : Field) : { f with choices := f.choices.modify i g }.links ⊆ f.links := by
  rw [links_eq, links_eq f]
  refine List.append_subset.mpr ⟨List.subset_append_left _ _, ?_⟩
  exact List.subset_append_of_subset_right _ (flatMap_links_modify_subset hg)

end Field

namespace SchemaType

variable {t u : SchemaType} {l : Link}

theorem links_eq (t : SchemaType) :
    t.links = t.fields.flatMap Field.links ++ t.extensions.filterMap (·.type.link?) := by
  simp only [links, fieldTypes, List.filterMap_append, List.filterMap_flatMap, List.filterMap_map]
  rfl

/-- A change of the fields changes the links as it changes those of the fields. -/
theorem links_withFields {fs : List Field} (hfs : fs.flatMap Field.links = t.fields.flatMap Field.links) :
    { t with fields := fs }.links = t.links := by
  rw [links_eq, links_eq, hfs]

theorem links_withFields_subset {fs : List Field}
    (hfs : fs.flatMap Field.links ⊆ t.fields.flatMap Field.links) :
    { t with fields := fs }.links ⊆ t.links := by
  rw [links_eq, links_eq]
  exact List.append_subset.mpr ⟨List.subset_append_of_subset_left _ hfs, List.subset_append_right _ _⟩

theorem links_modifyField_subset {i : Nat} {g : Field → Field} (hg : ∀ f, (g f).links ⊆ f.links)
    (t : SchemaType) : { t with fields := t.fields.modify i g }.links ⊆ t.links :=
  links_withFields_subset (Field.flatMap_links_modify_subset hg)

/-- A change of references changes the links as it changes each. -/
theorem links_mapFieldTypes (g : FieldType → FieldType) (t : SchemaType) :
    (t.mapFieldTypes g).links = t.fieldTypes.filterMap fun ft => (g ft).link? := by
  rw [links, fieldTypes_mapFieldTypes, List.filterMap_map]
  rfl

theorem mem_links_iff : l ∈ t.links ↔ ∃ ft ∈ t.fieldTypes, ft.link? = some l :=
  List.mem_filterMap

-- ---------------------------------------------------------------------------
-- Changes that keep links
-- ---------------------------------------------------------------------------

theorem links_clearSequences (t : SchemaType) : t.clearSequences.links = t.links := by
  refine links_withFields ?_
  rw [List.flatMap_map]
  refine List.flatMap_congr fun f _ => ?_
  dsimp only
  split
  · rfl
  · exact Field.links_congr rfl rfl

theorem map_links_nameFields (fs : List Field) :
    (Schemata.nameFields fs).fields.map Field.links = fs.map Field.links := by
  have hrename : ∀ (n : FieldNaming) i name,
      (n.rename i name).fields.map Field.links = n.fields.map Field.links :=
    fun n i name => Field.map_links_modify fun f => f.links_rename name
  have htell : ∀ (n n' : FieldNaming) i name, n.rename? i name = some n' →
      n'.fields.map Field.links = n.fields.map Field.links := by
    intro n n' i name h
    simp only [FieldNaming.rename?] at h
    split at h
    · cases h
    · rw [← Option.some.inj h]
      exact hrename _ i name
  have hnumber : ∀ (n : FieldNaming) i,
      (n.number i).fields.map Field.links = n.fields.map Field.links :=
    fun n i => hrename _ i _
  have hsettle : ∀ (n : FieldNaming) places,
      (n.settle places).fields.map Field.links = n.fields.map Field.links := by
    intro n places
    unfold FieldNaming.settle
    split
    case h_1 i j =>
      cases h : n.tellApart? i j with
      | none => exact hnumber n j
      | some n' =>
        unfold FieldNaming.tellApart? at h
        dsimp only at h
        split at h
        · exact htell _ _ _ _ h
        · split at h
          · split at h
            · cases h
            · exact htell _ _ _ _ h
          · cases h
    case h_2 =>
      generalize places.drop 1 = rest
      induction rest generalizing n with
      | nil => rfl
      | cons i rest ih => exact (ih (n.number i)).trans (hnumber n i)
  unfold Schemata.nameFields
  generalize hstart : FieldNaming.mk fs _ _ = n
  have hn : n.fields.map Field.links = fs.map Field.links := by rw [← hstart]
  clear hstart
  generalize sameKeys fs = groups
  induction groups generalizing n with
  | nil => exact hn
  | cons places groups ih => exact ih (n.settle places) ((hsettle n places).trans hn)

theorem links_nameFields (t : SchemaType) : t.nameFields.1.links = t.links := by
  refine links_withFields ?_
  rw [List.flatMap_map]
  have hchoices : ∀ f : Field, (if f.choices.length > 1 then
      { f with choices := (Schemata.nameFields f.choices).fields } else f).links = f.links := by
    intro f
    split
    · exact Field.links_congr rfl (map_links_nameFields f.choices)
    · rfl
  simp only [hchoices]
  rw [List.flatMap_def, List.flatMap_def, map_links_nameFields]

theorem links_checkOverrides_subset (s : Store) (t : SchemaType) :
    { t with fields := (s.checkOverrides t).1 }.links ⊆ t.links := by
  have hstep : ∀ inherited (c : OverrideCheck) (f : Field),
      (OverrideCheck.step t inherited c f).kept.flatMap Field.links ⊆
        c.kept.flatMap Field.links ++ f.links := by
    intro inherited c f
    unfold OverrideCheck.step
    split
    · split
      · exact List.subset_append_left _ _
      · simp
    · split
      · split
        · exact List.subset_append_left _ _
        · simp
      · simp
  have hfold : ∀ inherited (fs : List Field) (c : OverrideCheck),
      (fs.foldl (OverrideCheck.step t inherited) c).kept.flatMap Field.links ⊆
        c.kept.flatMap Field.links ++ fs.flatMap Field.links := by
    intro inherited fs
    induction fs with
    | nil => simp
    | cons f fs ih =>
      intro c
      refine List.Subset.trans (ih _) ?_
      rw [List.flatMap_cons, ← List.append_assoc]
      exact List.append_subset.mpr ⟨List.subset_append_of_subset_left _ (hstep inherited c f),
        List.subset_append_right _ _⟩
  refine links_withFields_subset (List.Subset.trans (hfold _ t.fields _) ?_)
  rw [List.flatMap_nil, List.nil_append]
  exact List.Subset.refl _

theorem links_flagCircular (g : KeyedGraph Handle) (t : SchemaType) :
    (t.flagCircular g).links = t.links := by
  rw [flagCircular, links_mapFieldTypes, links]
  refine List.filterMap_congr fun ft _ => ?_
  split
  · rfl
  · rfl

theorem links_renumberFields (t : SchemaType) : t.renumberFields.links = t.links :=
  congrArg (List.filterMap FieldType.link?) (fieldTypes_renumberFields t)

theorem links_retarget (h : Handle) (q : QName) (t : SchemaType) :
    (t.retarget h q).links = t.links.map (Link.follow h q) := by
  have henums : ∀ t : SchemaType, { t with fields := t.fields.map fun (f : Field) =>
      let f := f.retargetEnum h q
      { f with choices := f.choices.map (Field.retargetEnum h q) } }.links = t.links := by
    intro t
    refine links_withFields ?_
    rw [List.flatMap_map]
    refine List.flatMap_congr fun f _ => Field.links_congr rfl ?_
    rw [List.map_map]
    exact List.map_congr_left fun c _ => Field.links_congr rfl rfl
  rw [retarget, henums, links_mapFieldTypes, links, List.map_filterMap]
  refine List.filterMap_congr fun ft _ => ?_
  unfold FieldType.link? Link.follow
  by_cases hnative : ft.native = true
  · simp [hnative]
  · by_cases hreference : ft.reference = h
    · simp [hnative, hreference]
    · simp [hnative, hreference]

-- ---------------------------------------------------------------------------
-- Compound fields
-- ---------------------------------------------------------------------------

theorem links_compoundField (name : String) (marker : Int) (members : List Field) :
    (compoundField name marker members).links = members.flatMap Field.links := by
  have hchoice : ∀ f : Field, f.asChoice.links = f.links := fun f => Field.links_congr rfl rfl
  rw [Field.links_eq, compoundField]
  simp [FieldType.ofNative, FieldType.link?, List.flatMap_map, hchoice]

/-- The position of the first member of a choice is there. -/
def HeadPlaced (fields : List (Field × Option Nat)) (places : List Nat) : Prop :=
  ∃ p ∈ fields, p.2 = places.head? ∧ p.2.isSome

theorem mem_links_mergeChoice {c : CompoundConfig} {inherited : List Field → List Field}
    {fields : List (Field × Option Nat)} {group : Int × List Nat}
    (hhead : HeadPlaced fields group.2) :
    l ∈ ((mergeChoice c inherited fields group).map (·.1)).flatMap Field.links ↔
      l ∈ (fields.map (·.1)).flatMap Field.links := by
  obtain ⟨marker, places⟩ := group
  simp only [mergeChoice, List.mem_flatMap, List.mem_map, List.mem_filterMap, exists_exists_and_eq_and]
  constructor
  · rintro ⟨p', ⟨p, hp, heq⟩, hl⟩
    split at heq
    · obtain rfl := Option.some.inj heq
      rw [links_compoundField] at hl
      obtain ⟨f, hf, hl⟩ := List.mem_flatMap.mp hl
      obtain ⟨q, hq, rfl⟩ := List.mem_map.mp hf
      exact ⟨q, List.mem_of_mem_filter hq, hl⟩
    · split at heq
      · cases heq
      · obtain rfl := Option.some.inj heq
        exact ⟨p, hp, hl⟩
  · rintro ⟨p, hp, hl⟩
    by_cases hmember : p.2.any places.contains = true
    · -- a member is a choice of the compound field
      obtain ⟨q, hq, hplace, -⟩ := hhead
      refine ⟨_, ⟨q, hq, if_pos (by simp [hplace])⟩, ?_⟩
      rw [links_compoundField]
      refine List.mem_flatMap.mpr ⟨p.1, List.mem_map_of_mem (List.mem_filter.mpr ⟨hp, hmember⟩), hl⟩
    · refine ⟨p, ⟨p, hp, ?_⟩, hl⟩
      rw [if_neg ?_, if_neg hmember]
      intro hplace
      refine hmember ?_
      obtain ⟨q, hq, hplace', hsome⟩ := hhead
      rw [beq_iff_eq.mp hplace] at hmember ⊢
      cases places with
      | nil => simp [hplace'] at hsome
      | cons i places => simp

/-- The positions are those of fields with the marker. -/
def Marks (fs : List Field) (group : Int × List Nat) : Prop :=
  ∀ i ∈ group.2, ∃ f, fs[i]? = some f ∧ f.restrictions.choice = group.1

theorem HeadPlaced.mergeChoice {c : CompoundConfig} {inherited : List Field → List Field}
    {fs : List Field} {fields : List (Field × Option Nat)} {group group' : Int × List Nat}
    (hhead : HeadPlaced fields group'.2) (hgroup : Marks fs group) (hgroup' : Marks fs group')
    (hne : group.1 ≠ group'.1) : HeadPlaced (mergeChoice c inherited fields group) group'.2 := by
  obtain ⟨p, hp, hplace, hsome⟩ := hhead
  obtain ⟨i, hi⟩ := Option.isSome_iff_exists.mp hsome
  have hi' : i ∈ group'.2 := List.mem_of_mem_head? (hplace.symm.trans hi)
  have hnot : i ∉ group.2 := by
    intro hmem
    obtain ⟨f, hf, hmarker⟩ := hgroup i hmem
    obtain ⟨f', hf', hmarker'⟩ := hgroup' i hi'
    rw [hf] at hf'
    obtain rfl := Option.some.inj hf'
    exact hne (hmarker.symm.trans hmarker')
  refine ⟨p, ?_, hplace, hsome⟩
  simp only [Schemata.mergeChoice, List.mem_filterMap]
  refine ⟨p, hp, ?_⟩
  rw [if_neg, if_neg]
  · simpa [hi] using hnot
  · rw [hi, beq_iff_eq]
    exact fun heq => hnot (List.mem_of_mem_head? heq.symm)

theorem marks_choiceGroups {fs : List Field} {group : Int × List Nat}
    (hgroup : group ∈ choiceGroups fs) : Marks fs group ∧ group.2 ≠ [] := by
  simp only [choiceGroups, List.mem_filter, List.mem_map, decide_eq_true_eq] at hgroup
  obtain ⟨⟨marker, -, rfl⟩, hlength⟩ := hgroup
  refine ⟨fun i hi => ?_, fun hnil => ?_⟩
  · simp only [List.mem_map, List.mem_filter, beq_iff_eq] at hi
    obtain ⟨⟨f, j⟩, ⟨⟨hmem, -⟩, hmarker⟩, rfl⟩ := hi
    exact ⟨f, (List.mk_mem_zipIdx_iff_getElem?.mp hmem), hmarker⟩
  · simp only at hnil hlength
    rw [hnil] at hlength
    cases hlength

theorem nodup_choiceGroups (fs : List Field) : ((choiceGroups fs).map (·.1)).Nodup := by
  unfold choiceGroups
  refine List.Nodup.sublist (List.filter_sublist.map _) ?_
  rw [List.map_map]
  refine List.Nodup.map (f := fun marker : Int => marker) (fun _ _ heq => heq) ?_
  exact Lists.nodup_eraseDups _

/-- Merging fields into compound fields moves links and drops none. -/
theorem mem_links_compound {c : CompoundConfig} {inherited : List Field → List Field} :
    l ∈ (t.compound c inherited).links ↔ l ∈ t.links := by
  -- the positions of every choice that is still to be merged are there
  have hfold : ∀ (groups : List (Int × List Nat)) (fields : List (Field × Option Nat)),
      (groups.map (·.1)).Nodup → (∀ group ∈ groups, Marks t.fields group) →
      (∀ group ∈ groups, HeadPlaced fields group.2) →
      (l ∈ ((groups.foldl (mergeChoice c inherited) fields).map (·.1)).flatMap Field.links ↔
        l ∈ (fields.map (·.1)).flatMap Field.links) := by
    intro groups
    induction groups with
    | nil => exact fun fields _ _ _ => Iff.rfl
    | cons group groups ih =>
      intro fields hnodup hmarks hplaced
      rw [List.map_cons, List.nodup_cons] at hnodup
      obtain ⟨hmark, hmarks⟩ := List.forall_mem_cons.mp hmarks
      obtain ⟨hhead, hplaced⟩ := List.forall_mem_cons.mp hplaced
      refine (ih _ hnodup.2 hmarks fun group' hmem => ?_).trans (mem_links_mergeChoice hhead)
      refine (hplaced group' hmem).mergeChoice hmark (hmarks group' hmem) fun heq => ?_
      exact hnodup.1 (heq ▸ List.mem_map_of_mem hmem)
  have hfields : l ∈ (t.compound c inherited).fields.flatMap Field.links ↔
      l ∈ t.fields.flatMap Field.links := by
    refine (hfold _ _ (nodup_choiceGroups t.fields) (fun group hmem => (marks_choiceGroups hmem).1)
      fun group hmem => ?_).trans ?_
    · obtain ⟨hmarks, hne⟩ := marks_choiceGroups hmem
      obtain ⟨i, hi⟩ := Option.isSome_iff_exists.mp (List.isSome_head?.mpr hne)
      obtain ⟨f, hf, -⟩ := hmarks i (List.mem_of_mem_head? hi)
      refine ⟨(f, some i), List.mem_map.mpr ⟨(f, i), ?_, rfl⟩, hi.symm, rfl⟩
      exact List.mk_mem_zipIdx_iff_getElem?.mpr hf
    · rw [List.map_map]
      simp only [Function.comp_def, List.zipIdx_map_fst]
  rw [links_eq, links_eq, List.mem_append, List.mem_append, hfields]
  rfl

end SchemaType

end Schemata
