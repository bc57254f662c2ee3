import Mathlib.Data.List.Induction
import Schemata.Proofs.Model.Copies
import Schemata.Proofs.Unique.Renames
import Schemata.Proofs.Unique.Renaming

/-!
# Naming relabels the roots

A run of naming gives labels to some handles of roots. A root with a label has it for its name, and
references and enumeration defaults that are bound to the handle carry it; nothing else changes but
the index by name and the journal, which has a note for every root renamed. So references that carry
the names of their roots do so afterwards.
-/

namespace Schemata

/-- The reference with the label of what it is bound to. -/
def FieldType.relabel (label? : Handle → Option QName) (ft : FieldType) : FieldType :=
  if ft.native then ft else { ft with qname := (label? ft.reference).getD ft.qname }

/-- The enumeration default with the label of its enumeration. -/
def EnumValue.relabel (label? : Handle → Option QName) (v : EnumValue) : EnumValue :=
  { v with type := (label? v.ref).getD v.type }

def Field.relabelEnum (label? : Handle → Option QName) (f : Field) : Field :=
  { f with defaultEnum := f.defaultEnum.map (EnumValue.relabel label?) }

/-- The enumeration defaults of the field and of its direct choices with their labels. -/
def Field.relabelEnums (label? : Handle → Option QName) (f : Field) : Field :=
  { f.relabelEnum label? with choices := f.choices.map (Field.relabelEnum label?) }

/-- The type with new labels for its references, and for the enumeration defaults of its fields and of
their direct choices. -/
def SchemaType.relabel (label? : Handle → Option QName) (t : SchemaType) : SchemaType :=
  let t := t.mapFieldTypes (FieldType.relabel label?)
  { t with fields := t.fields.map (Field.relabelEnums label?) }

/-- The root with its label for a name, and new labels in all its tree. -/
def Entry.relabel (label? : Handle → Option QName) (e : Entry) : Entry :=
  { e with
    type := (e.type.mapTree (SchemaType.relabel label?)).withQName
      ((label? e.type.id).getD e.type.qname) }

/-- The labels that renames give. -/
def labelOf? (rs : List Renaming) (h : Handle) : Option QName :=
  (rs.findRev? (·.entry.type.id == h)).map (·.qname)

/-- The note about a rename. -/
def Renaming.note (r : Renaming) : Event :=
  .noted {
    severity := .info
    code := Code.renamedType
    message := "renamed type " ++ r.entry.type.qname.text ++ " to " ++ r.qname.text
    type := r.entry.type.qname.text
    field := "" }

/-- The enumeration defaults of the fields and of their direct choices. -/
def SchemaType.enumDefaults (t : SchemaType) : List EnumValue :=
  t.fields.flatMap fun f => (f :: f.choices).filterMap (·.defaultEnum)

/-- Every reference and every enumeration default that is bound to a root carries its name. -/
def Store.Labelled (s : Store) : Prop :=
  ∀ ⦃u⦄, s.Holds u → ∀ t ∈ s.types,
    (∀ ft ∈ u.fieldTypes, ft.native = false → ft.reference = t.id → ft.qname = t.qname) ∧
      ∀ v ∈ u.enumDefaults, v.ref = t.id → v.type = t.qname

-- ---------------------------------------------------------------------------
-- Labels after labels
-- ---------------------------------------------------------------------------

variable {s : Store} {rs : List Renaming} {e : Entry} {label? later? : Handle → Option QName}

theorem FieldType.relabel_relabel (ft : FieldType) :
    (ft.relabel label?).relabel later? = ft.relabel fun h => (later? h).or (label? h) := by
  unfold FieldType.relabel
  split
  case isTrue => rfl
  case isFalse =>
    dsimp only
    cases later? ft.reference with
    | none => rfl
    | some q => rfl

theorem EnumValue.relabel_relabel (v : EnumValue) :
    (v.relabel label?).relabel later? = v.relabel fun h => (later? h).or (label? h) := by
  unfold EnumValue.relabel
  dsimp only
  cases later? v.ref with
  | none => rfl
  | some q => rfl

theorem Field.relabelEnum_relabelEnum (f : Field) :
    (f.relabelEnum label?).relabelEnum later? = f.relabelEnum fun h => (later? h).or (label? h) := by
  simp only [relabelEnum, Option.map_map, Function.comp_def, EnumValue.relabel_relabel]

theorem Field.relabelEnums_relabelEnums (f : Field) : (f.relabelEnums label?).relabelEnums later? =
    f.relabelEnums fun h => (later? h).or (label? h) := by
  have hchoices : (f.choices.map (relabelEnum label?)).map (relabelEnum later?) =
      f.choices.map (relabelEnum fun h => (later? h).or (label? h)) := by
    rw [List.map_map]
    exact List.map_congr_left fun c _ => c.relabelEnum_relabelEnum
  simp only [relabelEnums, hchoices, relabelEnum, Option.map_map, Function.comp_def,
    EnumValue.relabel_relabel]

theorem Field.choices_mapTypes (g : FieldType → FieldType) (f : Field) :
    (f.mapTypes g).choices = f.choices.map (Field.mapTypes g) := by
  cases f
  exact mapTypesOf_eq_map g _

/-- References and enumeration defaults are changed in either order. -/
theorem Field.mapTypes_relabelEnums (g : FieldType → FieldType) (f : Field) :
    (f.relabelEnums label?).mapTypes g = (f.mapTypes g).relabelEnums label? := by
  have hcomm : ∀ c : Field, (c.relabelEnum label?).mapTypes g = (c.mapTypes g).relabelEnum label? := by
    intro c
    cases c
    rfl
  have hchoices : (f.choices.map (relabelEnum label?)).map (mapTypes g) =
      (f.choices.map (mapTypes g)).map (relabelEnum label?) := by
    rw [List.map_map, List.map_map]
    exact List.map_congr_left fun c _ => hcomm c
  cases f
  simp only [relabelEnums, relabelEnum, mapTypes, mapTypesOf_eq_map]
  rw [hchoices]

theorem SchemaType.relabel_none (t : SchemaType) : t.relabel (fun _ => none) = t := by
  have htypes : FieldType.relabel (fun _ => none) = fun ft => ft := by
    funext ft
    unfold FieldType.relabel
    split
    · rfl
    · rfl
  have henum : ∀ f : Field, f.relabelEnum (fun _ => none) = f := by
    rintro ⟨_, _, _, _, _, _, _, _, _, _, _, _, _, _, _ | _⟩
    · rfl
    · rfl
  have henums : ∀ f : Field, f.relabelEnums (fun _ => none) = f := by
    intro f
    have hchoices : f.choices.map (Field.relabelEnum fun _ => none) = f.choices :=
      (List.map_congr_left fun c _ => henum c).trans (List.map_id _)
    rw [Field.relabelEnums, hchoices, henum]
    cases f
    rfl
  cases t
  simp [relabel, mapFieldTypes, htypes, Field.mapTypes_id, henums, Function.comp_def]

namespace SchemaType

theorem shallow_relabel (label? : Handle → Option QName) : Shallow (relabel label?) :=
  ⟨fun _ => rfl, fun _ _ => rfl⟩

theorem relabel_relabel (t : SchemaType) :
    (t.relabel label?).relabel later? = t.relabel fun h => (later? h).or (label? h) := by
  have htypes : FieldType.relabel later? ∘ FieldType.relabel label? =
      FieldType.relabel fun h => (later? h).or (label? h) := funext FieldType.relabel_relabel
  simp only [relabel, mapFieldTypes, List.map_map, mk.injEq, true_and, and_true]
  refine ⟨List.map_congr_left fun f _ => ?_, List.map_congr_left fun e _ => ?_⟩
  · simp only [Function.comp_apply, Field.mapTypes_relabelEnums, Field.mapTypes_mapTypes,
      Field.relabelEnums_relabelEnums, htypes]
  · simp only [Function.comp_apply, FieldType.relabel_relabel]

/-- To follow a type to its new name is to give a label to its handle. -/
theorem retarget_eq_relabel (h : Handle) (q : QName) :
    retarget h q = relabel fun k => if k = h then some q else none := by
  have htype : (fun ft : FieldType => if ft.reference == h && !ft.native then { ft with qname := q } else ft) =
      FieldType.relabel fun k => if k = h then some q else none := by
    funext ft
    cases ft with | mk qname reference native forward circular substituted =>
    unfold FieldType.relabel
    by_cases href : reference = h
    · cases native with
      | true => simp
      | false => simp [href]
    · simp [href]
  have henum : Field.retargetEnum h q = Field.relabelEnum fun k => if k = h then some q else none := by
    funext f
    unfold Field.retargetEnum Field.relabelEnum
    refine congrArg (fun g => { f with defaultEnum := f.defaultEnum.map g }) (funext fun v => ?_)
    unfold EnumValue.relabel
    by_cases href : v.ref = h
    · simp [href]
    · simp [href]
  funext t
  simp only [retarget, htype, henum]
  rfl

theorem fieldTypes_relabel (t : SchemaType) :
    (t.relabel label?).fieldTypes = t.fieldTypes.map (FieldType.relabel label?) := by
  have henum : ∀ f : Field, (f.relabelEnum label?).allTypes = f.allTypes := by
    intro f
    cases f
    rfl
  have henums : ∀ f : Field, (f.relabelEnums label?).allTypes = f.allTypes := by
    intro f
    have hchoices : (f.choices.map (Field.relabelEnum label?)).flatMap Field.allTypes =
        f.choices.flatMap Field.allTypes := by
      rw [List.flatMap_map]
      exact List.flatMap_congr fun c _ => henum c
    rw [Field.allTypes_eq, Field.allTypes_eq f, Field.allTypesOf_eq_flatMap, Field.allTypesOf_eq_flatMap,
      ← hchoices]
    rfl
  rw [← fieldTypes_mapFieldTypes]
  simp only [fieldTypes, relabel, List.flatMap_map, henums]

theorem enumDefaults_relabel (t : SchemaType) :
    (t.relabel label?).enumDefaults = t.enumDefaults.map (EnumValue.relabel label?) := by
  have hfields : ∀ fs : List Field,
      (fs.map (Field.relabelEnum label?)).filterMap (·.defaultEnum) =
        (fs.filterMap (·.defaultEnum)).map (EnumValue.relabel label?) := by
    intro fs
    rw [List.filterMap_map, List.map_filterMap]
    rfl
  have htypes : ∀ (g : FieldType → FieldType) (fs : List Field),
      (fs.map (Field.mapTypes g)).filterMap (·.defaultEnum) = fs.filterMap (·.defaultEnum) := by
    intro g fs
    rw [List.filterMap_map]
    refine List.filterMap_congr fun f _ => ?_
    cases f
    rfl
  have hmapTypes : ∀ (g : FieldType → FieldType) (f : Field),
      f.mapTypes g :: (f.mapTypes g).choices = (f :: f.choices).map (Field.mapTypes g) := by
    intro g f
    rw [Field.choices_mapTypes, List.map_cons]
  simp only [enumDefaults, relabel, mapFieldTypes, List.flatMap_map, List.map_flatMap]
  refine List.flatMap_congr fun f _ => ?_
  have hcons : ∀ f : Field, (f.relabelEnums label? :: (f.relabelEnums label?).choices).filterMap
      (·.defaultEnum) = ((f :: f.choices).map (Field.relabelEnum label?)).filterMap (·.defaultEnum) :=
    fun _ => rfl
  rw [hcons, hfields, hmapTypes, htypes]

theorem mapTree_withQName (t : SchemaType) (q : QName) :
    (t.withQName q).mapTree (relabel label?) = (t.mapTree (relabel label?)).withQName q := by
  rw [(shallow_relabel label?).mapTree_eq_withInner, (shallow_relabel label?).mapTree_eq_withInner]
  rfl

theorem qname_mapTree_relabel (t : SchemaType) : (t.mapTree (relabel label?)).qname = t.qname := by
  rw [(shallow_relabel label?).mapTree_eq_withInner]
  rfl

end SchemaType

theorem Entry.relabel_relabel (e : Entry) :
    (e.relabel label?).relabel later? = e.relabel fun h => (later? h).or (label? h) := by
  have hcomp : SchemaType.relabel later? ∘ SchemaType.relabel label? =
      SchemaType.relabel fun h => (later? h).or (label? h) := funext SchemaType.relabel_relabel
  have hid : ((e.type.mapTree (SchemaType.relabel label?)).withQName
      ((label? e.type.id).getD e.type.qname)).id = e.type.id :=
    (SchemaType.shallow_relabel label?).mapTree_id e.type
  rw [Entry.relabel, Entry.relabel, Entry.relabel, hid, SchemaType.mapTree_withQName,
    (SchemaType.shallow_relabel label?).mapTree_mapTree, hcomp, SchemaType.withQName_withQName]
  cases later? e.type.id with
  | none => rfl
  | some q => rfl

-- ---------------------------------------------------------------------------
-- A run
-- ---------------------------------------------------------------------------

theorem labelOf?_append_singleton (rs : List Renaming) (r : Renaming) (h : Handle) :
    labelOf? (rs ++ [r]) h =
      ((fun k => if k = r.entry.type.id then some r.qname else none) h).or (labelOf? rs h) := by
  simp only [labelOf?, List.findRev?_eq_find?_reverse, List.reverse_append, List.reverse_singleton,
    List.singleton_append, List.find?_cons]
  by_cases hid : r.entry.type.id = h
  · simp [hid]
  · simp [beq_false_of_ne hid, Ne.symm hid]

/-- A rename gives one label. -/
theorem Store.roots_renameRoot (hkeys : (s.roots.map (·.key)).Nodup)
    (hids : (s.roots.map (·.type.id)).Nodup) (he : e ∈ s.roots) (name : String) :
    (s.renameRoot e.key name).roots = s.roots.map (Entry.relabel fun k =>
      if k = e.type.id then some (e.type.qname.withName name) else none) := by
  obtain ⟨byName, hrename⟩ := rename_eq hkeys he (e.type.qname.withName name)
  rw [renameRoot_eq hkeys he, hrename]
  change List.map _ (s.roots.map _) = _
  rw [List.map_map]
  refine List.map_congr_left fun e' he' => ?_
  rw [Function.comp_apply, SchemaType.retarget_eq_relabel]
  by_cases hkey : e'.key = e.key
  · obtain rfl := List.inj_on_of_nodup_map hkeys he' he hkey
    rw [if_pos rfl, Entry.relabel, if_pos rfl]
    exact congrArg (Entry.mk e'.key) (SchemaType.mapTree_withQName e'.type _)
  · have hid : e'.type.id ≠ e.type.id := fun hid =>
      hkey (congrArg (·.key) (List.inj_on_of_nodup_map hids he' he hid))
    rw [if_neg hkey, Entry.relabel, if_neg hid, Option.getD_none]
    refine congrArg (Entry.mk e'.key) ?_
    exact (SchemaType.withQName_self _).symm.trans
      (congrArg _ (SchemaType.qname_mapTree_relabel e'.type))

theorem Store.renameRoot_frame (hkeys : (s.roots.map (·.key)).Nodup) (he : e ∈ s.roots) (name : String) :
    ∃ aside byName, s.renameRoot e.key name = { s with
      roots := (s.renameRoot e.key name).roots, aside, byName,
      journal := s.journal ++ [Renaming.note ⟨e, name⟩] } ∧
      ((∀ e' ∈ s.aside, e'.key ≠ e.key) → aside = s.aside) := by
  obtain ⟨byName, hrename⟩ := rename_eq hkeys he (e.type.qname.withName name)
  rw [renameRoot_eq hkeys he, hrename]
  refine ⟨_, _, rfl, fun hother => ?_⟩
  exact (List.map_congr_left fun e' he' => if_neg (hother e' he')).trans (List.map_id _)

theorem Store.Indexed.renameRoot (hkeys : (s.roots.map (·.key)).Nodup) (hs : s.Indexed)
    (he : e ∈ s.roots) (name : String) : (s.renameRoot e.key name).Indexed := by
  rw [renameRoot_eq hkeys he]
  intro q
  refine (Indexed.rename hkeys hs e.key _ q).trans ?_
  simp only [namesakes, inform, note, record, Store.retarget, List.filter_map, List.map_map,
    Function.comp_def, (SchemaType.shallow_retarget _ _).mapTree_eq_withInner]
  rfl

/-- A store in which the roots have got the labels of a list of renames. -/
structure Store.Relabels (s : Store) (rs : List Renaming) (s' : Store) : Prop where
  frame : ∃ aside byName, s' = { s with
    roots := s.roots.map (Entry.relabel (labelOf? rs)), aside, byName,
    journal := s.journal ++ rs.map Renaming.note }
  /-- What is kept aside under numbers of its own stays as it is. -/
  aside : (∀ e ∈ s.aside, e.key ∉ s.roots.map (·.key)) → s'.aside = s.aside
  indexed : s.Indexed → s'.Indexed

namespace Store

theorem Relabels.roots {s' : Store} (hs : s.Relabels rs s') :
    s'.roots = s.roots.map (Entry.relabel (labelOf? rs)) := by
  obtain ⟨aside, byName, rfl⟩ := hs.frame
  rfl

theorem relabels_nil (s : Store) : s.Relabels [] s where
  frame := by
    have hnone : labelOf? [] = fun _ => none := rfl
    have hself : ∀ e : Entry, e.relabel (fun _ => none) = e := by
      rintro ⟨key, type⟩
      rw [Entry.relabel, SchemaType.mapTree_of_forall_eq fun u _ => u.relabel_none, Option.getD_none,
        SchemaType.withQName_self]
    refine ⟨s.aside, s.byName, ?_⟩
    rw [hnone, List.map_congr_left fun e _ => hself e]
    simp
  aside _ := rfl
  indexed hs := hs

/-- One rename more: the root has kept its name so far, since no root is renamed twice. -/
theorem Relabels.renameRoot {s' : Store} {r : Renaming} (hkeys : (s.roots.map (·.key)).Nodup)
    (hids : (s.roots.map (·.type.id)).Nodup) (hs : s.Relabels rs s') (hroots : ∀ r ∈ rs, r.entry ∈ s.roots)
    (hr : r.entry ∈ s.roots) (honce : r.entry.key ∉ rs.map (·.entry.key)) :
    s.Relabels (rs ++ [r]) (s'.renameRoot r.entry.key r.name) := by
  have hname : labelOf? rs r.entry.type.id = none := by
    rw [labelOf?, Option.map_eq_none_iff, List.findRev?_eq_find?_reverse, List.find?_eq_none]
    intro r' hr' hid
    have hr' := List.mem_reverse.mp hr'
    obtain heq := List.inj_on_of_nodup_map hids (hroots r' hr') hr (beq_iff_eq.mp hid)
    exact honce (heq ▸ List.mem_map_of_mem (f := fun r : Renaming => r.entry.key) hr')
  have hkeys' : (s'.roots.map (·.key)).Nodup := by
    rw [hs.roots, List.map_map]
    exact hkeys
  have hmem : r.entry.relabel (labelOf? rs) ∈ s'.roots := hs.roots ▸ List.mem_map_of_mem hr
  have hqname : (r.entry.relabel (labelOf? rs)).type.qname = r.entry.type.qname := by
    change (labelOf? rs r.entry.type.id).getD _ = _
    rw [hname, Option.getD_none]
  have hid : (r.entry.relabel (labelOf? rs)).type.id = r.entry.type.id :=
    (SchemaType.shallow_relabel _).mapTree_id _
  have hnote : Renaming.note ⟨r.entry.relabel (labelOf? rs), r.name⟩ = r.note := by
    simp only [Renaming.note, Renaming.qname, hqname]
  have hids' : (s'.roots.map (·.type.id)).Nodup := by
    rw [hs.roots, List.map_map]
    exact (congrArg List.Nodup (List.map_congr_left fun e _ =>
      (SchemaType.shallow_relabel _).mapTree_id e.type)).mpr hids
  have hnew : (s'.renameRoot r.entry.key r.name).roots =
      s.roots.map (Entry.relabel (labelOf? (rs ++ [r]))) := by
    refine (roots_renameRoot hkeys' hids' hmem r.name).trans ?_
    rw [hs.roots, List.map_map, hid, hqname]
    refine List.map_congr_left fun e _ => ?_
    rw [Function.comp_apply, Entry.relabel_relabel]
    exact congrArg e.relabel (funext fun h => (labelOf?_append_singleton rs r h).symm)
  obtain ⟨aside, byName, hframe⟩ := hs.frame
  obtain ⟨aside', byName', hframe', haside⟩ := renameRoot_frame hkeys' hmem r.name
  have hkey : (r.entry.relabel (labelOf? rs)).key = r.entry.key := rfl
  rw [hnote, hkey] at hframe'
  constructor
  case frame =>
    refine ⟨aside', byName', hframe'.trans ?_⟩
    rw [hnew, hframe]
    simp
  case aside =>
    intro hasides
    have haside₀ := hs.aside hasides
    rw [hframe', ← haside₀]
    refine haside fun e he hkey => hasides e (haside₀ ▸ he) ?_
    exact List.mem_map.mpr ⟨r.entry, hr, hkey.symm⟩
  case indexed => exact fun hindex => (hs.indexed hindex).renameRoot hkeys' hmem r.name

theorem relabels_renameAll (hkeys : (s.roots.map (·.key)).Nodup)
    (hids : (s.roots.map (·.type.id)).Nodup) (hroots : ∀ r ∈ rs, r.entry ∈ s.roots)
    (honce : (rs.map (·.entry.key)).Nodup) : s.Relabels rs (s.renameAll rs) := by
  induction rs using List.reverseRecOn with
  | nil => exact relabels_nil s
  | append_singleton rs r ih =>
    rw [List.forall_mem_append, List.forall_mem_singleton] at hroots
    rw [List.map_append, List.nodup_append'] at honce
    rw [renameAll_append]
    exact (ih hroots.1 honce.1).renameRoot hkeys hids hroots.1 hroots.2 fun hmem =>
      honce.2.2 hmem List.mem_cons_self

-- ---------------------------------------------------------------------------
-- References that carry the names of their roots
-- ---------------------------------------------------------------------------

/-- Every type of a relabelled store is a type of the store with new labels. -/
theorem Relabels.exists_of_holds {s' : Store} {u' : SchemaType} (hs : s.Relabels rs s')
    (hu' : s'.Holds u') :
    ∃ u, s.Holds u ∧ u'.fieldTypes = u.fieldTypes.map (FieldType.relabel (labelOf? rs)) ∧
      u'.enumDefaults = u.enumDefaults.map (EnumValue.relabel (labelOf? rs)) := by
  have hshallow := SchemaType.shallow_relabel (labelOf? rs)
  have hown : ∀ u : SchemaType, u.mapTree (SchemaType.relabel (labelOf? rs)) =
      (u.relabel (labelOf? rs)).withInner _ := hshallow.mapTree_eq_withInner
  obtain ⟨t', ht', hwithin⟩ := hu'
  rw [types, hs.roots, List.map_map] at ht'
  obtain ⟨e, he, rfl⟩ := List.mem_map.mp ht'
  have ht : s.Holds e.type := holds_of_mem_types (List.mem_map_of_mem he)
  -- only at the top the name is another one
  cases hwithin with
  | self => exact ⟨e.type, ht, by
      rw [← SchemaType.fieldTypes_relabel, ← SchemaType.enumDefaults_relabel, Function.comp_apply,
        Entry.relabel, hown]
      exact ⟨rfl, rfl⟩⟩
  | inner hc hwithin =>
    have hu' : SchemaType.Within u' (e.type.mapTree (SchemaType.relabel (labelOf? rs))) := .inner hc hwithin
    obtain ⟨u, hu, rfl⟩ := hshallow.within_mapTree_iff.mp hu'
    refine ⟨u, ht.within hu, ?_⟩
    rw [← SchemaType.fieldTypes_relabel, ← SchemaType.enumDefaults_relabel, hown]
    exact ⟨rfl, rfl⟩

theorem Relabels.labelled {s' : Store} (hs : s.Relabels rs s') (hlabelled : s.Labelled) :
    s'.Labelled := by
  intro u' hu' t' ht'
  obtain ⟨u, hu, htypes, henums⟩ := hs.exists_of_holds hu'
  rw [types, hs.roots, List.map_map] at ht'
  obtain ⟨e, he, rfl⟩ := List.mem_map.mp ht'
  obtain ⟨hcarry, hcarryEnum⟩ := hlabelled hu e.type (List.mem_map_of_mem he)
  have hid : (e.relabel (labelOf? rs)).type.id = e.type.id :=
    (SchemaType.shallow_relabel _).mapTree_id _
  have hqname : (e.relabel (labelOf? rs)).type.qname = (labelOf? rs e.type.id).getD e.type.qname := rfl
  rw [Function.comp_apply, hid, hqname, htypes, henums]
  constructor
  · intro ft' hft' hnative href
    obtain ⟨ft, hft, rfl⟩ := List.mem_map.mp hft'
    have hnative : ft.native = false := by
      unfold FieldType.relabel at hnative
      split at hnative
      · exact hnative
      · exact hnative
    rw [FieldType.relabel, hnative] at href ⊢
    have href : ft.reference = e.type.id := href
    change (labelOf? rs ft.reference).getD ft.qname = _
    rw [href, hcarry ft hft hnative href]
  · intro v' hv' href
    obtain ⟨v, hv, rfl⟩ := List.mem_map.mp hv'
    have href : v.ref = e.type.id := href
    change (labelOf? rs v.ref).getD v.type = _
    rw [href, hcarryEnum v hv href]

/-- Naming is a relabelling: the references and enumeration defaults that are bound to roots still carry
their names, the index by name is up to date, and apart from the local names of the renamed roots, the
names that are carried to them and a note for each nothing is changed. -/
theorem nameTypes_relabels (hkeys : (s.roots.map (·.key)).Nodup) (hhandles : s.handles.Nodup)
    (hindex : s.Indexed) (hlabelled : s.Labelled) :
    s.nameTypes.Labelled ∧ s.nameTypes.Indexed ∧ ∃ rs : List Renaming,
      (∀ r ∈ rs, r.entry ∈ s.roots) ∧ (rs.map (·.entry.key)).Nodup ∧ s.Relabels rs s.nameTypes := by
  obtain ⟨rs, hplan, -, hnames⟩ := exists_plan hkeys
  have hrelabels := relabels_renameAll hkeys (nodup_root_ids hhandles) hplan.roots hplan.once
  rw [← hnames] at hrelabels
  exact ⟨hrelabels.labelled hlabelled, hrelabels.indexed hindex, rs, hplan.roots, hplan.once, hrelabels⟩

end Store

namespace Recoloured

/-- An element of the name of a restriction in another namespace, which its inner type, a field and an
enumeration default are bound to. -/
def colour : SchemaType :=
  { qname := ⟨"urn:a", "Colour"⟩, tag := .element
    fields := [
      { name := "shade", tag := .element, types := [{ qname := ⟨"urn:b", "colour"⟩, reference := 3 }]
        defaultEnum := some { type := ⟨"urn:b", "colour"⟩, ref := 3, member := "red" } }]
    inner := [
      { qname := ⟨"urn:a", "mix"⟩, tag := .complexType
        extensions := [{ tag := .extension, type := { qname := ⟨"urn:b", "colour"⟩, reference := 3 } }] }] }

def members : SchemaType :=
  { qname := ⟨"urn:b", "colour"⟩, tag := .simpleType
    fields := [{ name := "red", tag := .enumeration }] }

def store : Store :=
  ({ config := { output := { layout := .single } } } : Store).insertAll [colour, members]

theorem relabelled : store.Labelled ∧
    store.nameTypes.types.map (·.qname) = [⟨"urn:a", "Colour"⟩, ⟨"urn:b", "colourType"⟩] ∧
    store.nameTypes.Labelled ∧ store.nameTypes.Indexed ∧ ∃ rs : List Renaming,
      (∀ r ∈ rs, r.entry ∈ store.roots) ∧ (rs.map (·.entry.key)).Nodup ∧
        store.Relabels rs store.nameTypes := by
  have hsound : store.Sound := .insertAll (.empty _) (.empty _) (by decide)
  have hlabelled : store.Labelled := by
    simp only [Store.Labelled, Store.holds_iff_mem_walkAll]
    decide +kernel
  exact ⟨hlabelled, by decide +kernel,
    Store.nameTypes_relabels hsound.keys hsound.handles hsound.byName hlabelled⟩

end Recoloured

end Schemata
