import Mathlib.Data.List.Basic
import Schemata.Binding.References
import Schemata.Choice.Substitutes
import Schemata.Content.Mixed
import Schemata.Content.Paths
import Schemata.Content.Repeated
import Schemata.Inherit.Bases
import Schemata.Proofs.Model.Trees
import Schemata.Value.Enumerations

/-!
# What passes make of fields

Passes that fold, group, merge, dissolve and add fields keep what is true of each field by its choices, its
tag and each of its types. `Field.Meets` says that something is true of a field in this way; `Field.Every`
is for fields without choices, and `Field.Throughout` for what is true of every type, those of choices
included.
-/

namespace Schemata

variable {C : List Field → Prop} {T : Tag → Prop} {P : FieldType → Prop} {f g : Field} {fs gs : List Field}

/-- A field whose choices satisfy `C`, whose tag satisfies `T` and whose types satisfy `P`. -/
structure Field.Meets (C : List Field → Prop) (T : Tag → Prop) (P : FieldType → Prop) (f : Field) : Prop where
  choices : C f.choices
  tag : T f.tag
  types : ∀ ft ∈ f.types, P ft

/-- A field without choices whose tag satisfies `T` and whose types satisfy `P`. -/
abbrev Field.Every (T : Tag → Prop) (P : FieldType → Prop) (f : Field) : Prop :=
  f.Meets (· = []) T P

/-- A field whose types and those of its choices satisfy `P`. -/
abbrev Field.Throughout (P : FieldType → Prop) (f : Field) : Prop :=
  f.Meets (fun fs => ∀ ft ∈ allTypesOf fs, P ft) (fun _ => True) P

namespace Field

theorem Meets.congr (hf : f.Meets C T P) (hchoices : g.choices = f.choices) (htag : g.tag = f.tag)
    (htypes : ∀ ft ∈ g.types, P ft) : g.Meets C T P :=
  ⟨hchoices ▸ hf.choices, htag ▸ hf.tag, htypes⟩

theorem Meets.mono {T' : Tag → Prop} {P' : FieldType → Prop} (hf : f.Meets C T P)
    (hT : ∀ tag, T tag → T' tag) (hP : ∀ ft, P ft → P' ft) : f.Meets C T' P' :=
  ⟨hf.choices, hT _ hf.tag, fun ft hft => hP ft (hf.types ft hft)⟩

theorem throughout_iff : f.Throughout P ↔ ∀ ft ∈ f.allTypes, P ft := by
  rw [allTypes_eq, List.forall_mem_append]
  exact ⟨fun hf => ⟨hf.types, hf.choices⟩, fun h => ⟨h.2, trivial, h.1⟩⟩

theorem throughout_mono {P' : FieldType → Prop} (hf : f.Throughout P) (hP : ∀ ft, P ft → P' ft) :
    f.Throughout P' :=
  throughout_iff.mpr fun ft hft => hP ft (throughout_iff.mp hf ft hft)

theorem throughout_default : ({} : Field).Throughout P :=
  ⟨nofun, trivial, nofun⟩

theorem meets_modify {change : Field → Field} {i : Nat} (hfs : ∀ f ∈ fs, f.Meets C T P)
    (hchange : ∀ f, f.Meets C T P → (change f).Meets C T P) : ∀ f ∈ fs.modify i change, f.Meets C T P := by
  intro f hf
  obtain ⟨j, hj⟩ := List.mem_iff_getElem?.mp hf
  rw [List.getElem?_modify, Option.map_eq_map, Option.map_eq_some_iff] at hj
  obtain ⟨f₀, hold, rfl⟩ := hj
  have hf₀ := hfs f₀ (List.mem_of_getElem? hold)
  split
  · exact hchange f₀ hf₀
  · exact hf₀

theorem meets_append (hfs : ∀ f ∈ fs, f.Meets C T P) (hgs : ∀ f ∈ gs, f.Meets C T P) :
    ∀ f ∈ fs ++ gs, f.Meets C T P := by
  intro f hf
  obtain hf | hf := List.mem_append.mp hf
  · exact hfs f hf
  · exact hgs f hf

/-- What a step of a fold keeps, the fold keeps. -/
theorem meets_foldl {α : Type} {step : List Field → α → List Field} {xs : List α}
    (hstep : ∀ x ∈ xs, ∀ fs : List Field, (∀ f ∈ fs, f.Meets C T P) → ∀ f ∈ step fs x, f.Meets C T P)
    (hfs : ∀ f ∈ fs, f.Meets C T P) : ∀ f ∈ xs.foldl step fs, f.Meets C T P := by
  induction xs generalizing fs with
  | nil => exact hfs
  | cons x xs ih =>
    obtain ⟨hx, hxs⟩ := List.forall_mem_cons.mp hstep
    exact ih hxs (hx fs hfs)

theorem forall_addTypes {types more : List FieldType} (htypes : ∀ ft ∈ types, P ft)
    (hmore : ∀ ft ∈ more, P ft) : ∀ ft ∈ addTypes types more, P ft := by
  unfold addTypes
  induction more generalizing types with
  | nil => exact htypes
  | cons ft more ih =>
    obtain ⟨hft, hmore⟩ := List.forall_mem_cons.mp hmore
    rw [List.foldl_cons]
    split
    · exact ih htypes hmore
    · refine ih (fun ft' hft' => ?_) hmore
      obtain hft' | hft' := List.mem_append.mp hft'
      · exact htypes ft' hft'
      · exact List.mem_singleton.mp hft' ▸ hft

theorem distinctTypes_sublist (types : List FieldType) : (distinctTypes types).Sublist types := by
  have hdistinct : (addTypes [] types).Sublist types := by
    suffices h : ∀ kept : List FieldType, (addTypes kept types).Sublist (kept ++ types) from h []
    unfold addTypes
    induction types with
    | nil => simp
    | cons ft types ih =>
      intro kept
      rw [List.foldl_cons]
      split
      · exact (ih kept).trans ((List.sublist_cons_self _ _).append_left _)
      · simpa using ih (kept ++ [ft])
  unfold distinctTypes
  dsimp only
  split
  · exact List.filter_sublist.trans hdistinct
  · exact hdistinct

theorem forall_distinctTypes {types : List FieldType} (htypes : ∀ ft ∈ types, P ft) :
    ∀ ft ∈ distinctTypes types, P ft :=
  fun ft hft => htypes ft ((distinctTypes_sublist types).subset hft)

end Field

open Schemata.Field

/-- The type with another field at a position. -/
def SchemaType.setField (t : SchemaType) (i : Nat) (f : Field) : SchemaType :=
  { t with fields := t.fields.set i f }

@[simp] theorem SchemaType.setField_setField (t : SchemaType) (i : Nat) (f g : Field) :
    (t.setField i f).setField i g = t.setField i g := by
  simp [setField]

theorem SchemaType.getElem?_setField {t : SchemaType} {i : Nat} (hf : t.fields[i]? = some f) (g : Field) :
    (t.setField i g).fields[i]? = some g :=
  List.getElem?_set_self (List.getElem?_eq_some_iff.mp hf).1

theorem SchemaType.setField_self {t : SchemaType} {i : Nat} (hf : t.fields[i]? = some f) : t.setField i f = t := by
  obtain ⟨hlt, rfl⟩ := List.getElem?_eq_some_iff.mp hf
  rw [setField, List.set_getElem_self]
  cases t
  rfl

theorem meets_foldPaths {t : SchemaType} (hfs : ∀ f ∈ t.fields, f.Meets C T P) :
    ∀ f ∈ t.foldPaths.fields, f.Meets C T P := by
  intro f hf
  obtain ⟨f₀, hf₀, rfl⟩ := List.mem_map.mp hf
  have hevery := hfs f₀ hf₀
  unfold Field.foldPath
  dsimp only
  split
  · exact hevery
  · exact hevery.congr rfl rfl hevery.types

-- ---------------------------------------------------------------------------
-- Repeated elements and repeated declarations
-- ---------------------------------------------------------------------------

theorem meets_mergeElements (hfs : ∀ f ∈ fs, f.Meets C T P) : ∀ f ∈ mergeElements fs, f.Meets C T P := by
  refine meets_foldl (fun f hf members hmembers => ?_) (by simp)
  have hf := hfs f hf
  split
  · exact meets_append hmembers (by simpa using hf)
  · refine meets_modify hmembers fun g hg => hg.congr rfl rfl ?_
    exact forall_addTypes hg.types hf.types

theorem meets_mergeSpan (s : Span) (hfs : ∀ f ∈ fs, f.Meets C T P) : ∀ f ∈ mergeSpan fs s, f.Meets C T P := by
  have hspan : ∀ f ∈ (fs.drop s.first).take (s.last + 1 - s.first), f.Meets C T P :=
    fun f hf => hfs f (List.mem_of_mem_drop (List.mem_of_mem_take hf))
  unfold mergeSpan
  dsimp only
  refine meets_append (meets_append (meets_append ?_ ?_) ?_) ?_
  · exact fun f hf => hfs f (List.mem_of_mem_take hf)
  · intro f hf
    obtain ⟨f₀, hf₀, rfl⟩ := List.mem_map.mp hf
    have hevery := meets_mergeElements (fun f hf => hspan f (List.mem_of_mem_filter hf)) f₀ hf₀
    exact hevery.congr rfl rfl hevery.types
  · exact fun f hf => hspan f (List.mem_of_mem_filter hf)
  · exact fun f hf => hfs f (List.mem_of_mem_drop hf)

theorem meets_groupRepetitions {t : SchemaType} (hfs : ∀ f ∈ t.fields, f.Meets C T P) :
    ∀ f ∈ t.groupRepetitions.fields, f.Meets C T P := by
  unfold SchemaType.groupRepetitions
  split
  · exact hfs
  · exact meets_foldl (fun s _ _ hfs => meets_mergeSpan s hfs) hfs

theorem meets_mergeFields {t : SchemaType} (hfs : ∀ f ∈ t.fields, f.Meets C T P) :
    ∀ f ∈ t.mergeFields.fields, f.Meets C T P := by
  refine meets_foldl (fun f hf fields hfields => ?_) (by simp)
  have hf := hfs f hf
  unfold mergeField
  split
  · exact meets_append hfields (by simpa using hf)
  · split
    · exact hfields
    · refine meets_modify hfields fun g hg => hg.congr rfl rfl ?_
      exact forall_addTypes hg.types hf.types

theorem meets_collectMixed {t : SchemaType} (hnone : C []) (hany : T .any) (hnative : P (.ofNative Native.anyType))
    (hfs : ∀ f ∈ t.fields, f.Meets C T P) : ∀ f ∈ t.collectMixed.fields, f.Meets C T P := by
  have hopen : ∀ {fs fs' : List Field}, (∀ f ∈ fs, f.Meets C T P) → openWildcard? fs = some fs' →
      ∀ f ∈ fs', f.Meets C T P := by
    intro fs fs' hfs hopen
    induction fs generalizing fs' with
    | nil => cases hopen
    | cons f fs ih =>
      obtain ⟨hf, hfs⟩ := List.forall_mem_cons.mp hfs
      rw [openWildcard?] at hopen
      split at hopen
      · obtain rfl := Option.some.inj hopen
        exact List.forall_mem_cons.mpr ⟨hf.congr rfl rfl hf.types, hfs⟩
      · obtain ⟨rest, hrest, rfl⟩ := Option.map_eq_some_iff.mp hopen
        exact List.forall_mem_cons.mpr ⟨hf, ih hfs hrest⟩
  unfold SchemaType.collectMixed
  split
  · cases hwildcard : openWildcard? t.fields with
    | some fs => exact hopen hfs hwildcard
    | none =>
      refine meets_append hfs fun f hf => ?_
      rw [List.mem_singleton.mp hf]
      exact ⟨hnone, hany, by simpa [contentField] using hnative⟩
  · exact hfs

-- ---------------------------------------------------------------------------
-- Bases and unions that are dissolved
-- ---------------------------------------------------------------------------

section Dissolving

variable {t b : SchemaType} {e : Extension} {ft : FieldType}

theorem meets_retypeMembers (hfs : ∀ f ∈ t.fields, f.Meets C T P) (hft : P ft) :
    ∀ f ∈ (t.retypeMembers ft).fields, f.Meets C T P := by
  intro f hf
  obtain ⟨f₀, hf₀, rfl⟩ := List.mem_map.mp hf
  exact (hfs f₀ hf₀).congr rfl rfl (by simpa using hft)

theorem meets_addValue {change : Field → Field} (hnone : C []) (hT : T .extension ∧ T .restriction)
    (hfs : ∀ f ∈ t.fields, f.Meets C T P) (hft : P ft)
    (hchange : ∀ f : Field, (change f).choices = f.choices ∧ (change f).tag = f.tag ∧
      (change f).types = f.types) :
    ∀ f ∈ (t.addValue e ft change).fields, f.Meets C T P := by
  have hend : ∀ {f : Field}, f.Meets C T P → (change f).Meets C T P := by
    intro f hf
    obtain ⟨hchoices, htag, htypes⟩ := hchange f
    exact hf.congr hchoices htag (htypes ▸ hf.types)
  unfold SchemaType.addValue
  split
  · refine meets_modify hfs fun f hf => hend (hf.congr rfl rfl fun ft' hft' => ?_)
    dsimp only at hft'
    split at hft'
    · exact hf.types ft' hft'
    · obtain hft' | hft' := List.mem_append.mp hft'
      · exact hf.types ft' hft'
      · exact List.mem_singleton.mp hft' ▸ hft
  · refine List.forall_mem_cons.mpr ⟨hend ⟨hnone, ?_, ?_⟩, hfs⟩
    · unfold SchemaType.valueField
      dsimp only
      split
      · exact hT.1
      · exact hT.2
    · simpa [SchemaType.valueField] using hft

theorem meets_addMembers (hfs : ∀ f ∈ t.fields, f.Meets C T P) (hsource : ∀ f ∈ b.fields, f.Meets C T P) :
    ∀ f ∈ (t.addMembers b).fields, f.Meets C T P :=
  meets_append hfs fun f hf => hsource f (List.mem_of_mem_filter hf)

theorem meets_completeMembers (hfs : ∀ f ∈ t.fields, f.Meets C T P)
    (hsource : ∀ f ∈ b.fields, f.Meets C T P) : ∀ f ∈ (t.completeMembers b).fields, f.Meets C T P := by
  unfold SchemaType.completeMembers
  split
  · exact hfs
  case h_2 first rest hb =>
    have hfirst := hsource first (hb ▸ List.mem_cons_self)
    intro f hf
    obtain ⟨f₀, hf₀, rfl⟩ := List.mem_map.mp hf
    have hf₀ := hfs f₀ hf₀
    split
    · exact hf₀.congr rfl rfl hfirst.types
    · exact hf₀

theorem meets_dissolveNative (hnone : C []) (hT : T .extension ∧ T .restriction)
    (hfs : ∀ f ∈ t.fields, f.Meets C T P) (hft : P e.type) :
    ∀ f ∈ (t.dissolveNative e).fields, f.Meets C T P := by
  unfold SchemaType.dissolveNative
  split
  · exact meets_retypeMembers hfs hft
  · exact meets_addValue hnone hT hfs hft fun _ => ⟨rfl, rfl, rfl⟩

theorem meets_dissolveEnumeration (hnone : C []) (hT : T .extension ∧ T .restriction)
    (hfs : ∀ f ∈ t.fields, f.Meets C T P) (hsource : ∀ f ∈ b.fields, f.Meets C T P)
    (hft : P { FieldType.ofDependency b.qname with reference := b.id }) :
    ∀ f ∈ (t.dissolveEnumeration b e).fields, f.Meets C T P := by
  unfold SchemaType.dissolveEnumeration
  split
  · refine meets_completeMembers ?_ hsource
    split
    · exact meets_addMembers hfs hsource
    · exact hfs
  · split
    · exact meets_addMembers hfs hsource
    · refine meets_addValue hnone hT hfs hft fun f => ?_
      split
      · split
        · exact ⟨rfl, rfl, rfl⟩
        · exact ⟨rfl, rfl, rfl⟩
      · exact ⟨rfl, rfl, rfl⟩

theorem meets_sortOutMembers (hfs : ∀ f ∈ t.fields, f.Meets C T P) :
    ∀ f ∈ t.sortOutMembers.fields, f.Meets C T P := by
  unfold SchemaType.sortOutMembers
  split
  · exact fun f hf => hfs f (List.mem_of_mem_filter hf)
  · exact hfs

theorem meets_unionMembers {bs : List SchemaType} (hbs : ∀ b ∈ bs, ∀ f ∈ b.fields, f.Meets C T P) :
    ∀ f ∈ unionMembers bs, f.Meets C T P := by
  refine meets_foldl (fun f hf members hmembers => ?_) (by simp)
  obtain ⟨b, hb, hf⟩ := List.mem_flatMap.mp hf
  split
  · exact hmembers
  · exact meets_append hmembers (by simpa using hbs b hb f hf)

end Dissolving

-- ---------------------------------------------------------------------------
-- Substitutes
-- ---------------------------------------------------------------------------

/-- What may be added for a reference to the head of a group: what is true of references to the head
is true of references to its members. -/
structure Substitutable (C : List Field → Prop) (T : Tag → Prop) (P : FieldType → Prop)
    (substitutes : List (QName × Field)) : Prop where
  marked : ∀ ft, P ft → P { ft with substituted := true }
  member : ∀ p ∈ substitutes, ∀ ft, P ft → ft.native = false → ft.qname = p.1 → p.2.Meets C T P

variable {substitutes : List (QName × Field)} {owner : QName}

/-- What is true of every field under expansion. -/
structure Expansion.Meets (C : List Field → Prop) (T : Tag → Prop) (P : FieldType → Prop) (e : Expansion) :
    Prop where
  current : e.current.field.Meets C T P
  found : ∀ d ∈ e.found, d.field.Meets C T P
  after : ∀ d ∈ e.after, d.field.Meets C T P

theorem meets_addMember {e : Expansion} {head : QName} {member : Field} (he : e.Meets C T P)
    (hmember : member.Meets C T P) : (e.addMember owner head member).Meets C T P := by
  unfold Expansion.addMember
  dsimp only
  split
  · exact ⟨he.current, he.found, he.after⟩
  · refine ⟨he.current, fun d hd => ?_, he.after⟩
    obtain hd | hd := List.mem_append.mp hd
    · exact he.found d hd
    · rw [List.mem_singleton.mp hd]
      exact hmember.congr rfl rfl hmember.types

theorem meets_expandType {e : Expansion} (hsubstitutes : Substitutable C T P substitutes)
    (he : e.Meets C T P) (k : Nat) : (e.expandType owner substitutes k).Meets C T P := by
  have hmembers : ∀ (head : QName) (members : List Field) (e : Expansion), e.Meets C T P →
      (∀ m ∈ members, m.Meets C T P) → (members.foldl (Expansion.addMember owner head) e).Meets C T P := by
    intro head members
    induction members with
    | nil => exact fun e he _ => he
    | cons m members ih =>
      intro e he hms
      obtain ⟨hm, hms⟩ := List.forall_mem_cons.mp hms
      exact ih _ (meets_addMember he hm) hms
  unfold Expansion.expandType
  dsimp only
  split
  · exact he
  case h_2 ft hft =>
    have hP := he.current.types ft (List.mem_of_getElem? hft)
    have hmarked : ∀ ft' ∈ e.current.field.types.modify k fun ft => { ft with substituted := true }, P ft' := by
      intro ft' hft'
      obtain ⟨j, hj⟩ := List.mem_iff_getElem?.mp hft'
      rw [List.getElem?_modify, Option.map_eq_map, Option.map_eq_some_iff] at hj
      obtain ⟨ft₀, hold, rfl⟩ := hj
      have hft₀ := he.current.types ft₀ (List.mem_of_getElem? hold)
      split
      · exact hsubstitutes.marked ft₀ hft₀
      · exact hft₀
    split
    · exact he
    case isFalse hdependency =>
      split
      · exact ⟨he.current.congr rfl rfl hmarked, he.found, he.after⟩
      · refine hmembers _ _ _ ⟨he.current.congr rfl rfl hmarked, he.found, he.after⟩ fun m hm => ?_
        obtain ⟨p, hp, rfl⟩ := List.mem_map.mp hm
        obtain ⟨hp, hhead⟩ := List.mem_filter.mp hp
        simp only [Bool.or_eq_true, Bool.not_eq_true', not_or, Bool.not_eq_false] at hdependency
        have hnative := FieldType.native_eq_false hdependency.2
        exact hsubstitutes.member p hp ft hP hnative (beq_iff_eq.mp hhead).symm

theorem meets_expandSubstitutes (hsubstitutes : Substitutable C T P substitutes) {rounds : Nat}
    {before result : List Field} {after : List Derived} {warnings notes : List Diagnostic}
    (hbefore : ∀ f ∈ before, f.Meets C T P) (hafter : ∀ d ∈ after, d.field.Meets C T P)
    (hresult : expandSubstitutes owner substitutes rounds before after warnings = some (result, notes)) :
    ∀ f ∈ result, f.Meets C T P := by
  induction rounds generalizing before after warnings with
  | zero =>
    cases after with
    | nil =>
      rw [expandSubstitutes] at hresult
      obtain rfl := congrArg (·.1) (Option.some.inj hresult)
      exact hbefore
    | cons d after => cases hresult
  | succ rounds ih =>
    cases after with
    | nil =>
      rw [expandSubstitutes] at hresult
      obtain rfl := congrArg (·.1) (Option.some.inj hresult)
      exact hbefore
    | cons d after =>
      obtain ⟨hd, hafter⟩ := List.forall_mem_cons.mp hafter
      rw [expandSubstitutes] at hresult
      split at hresult
      · have hexpanded : ∀ (places : List Nat) (e : Expansion), e.Meets C T P →
            (places.foldl (Expansion.expandType owner substitutes) e).Meets C T P := by
          intro places
          induction places with
          | nil => exact fun e he => he
          | cons k places ih => exact fun e he => ih _ (meets_expandType hsubstitutes he k)
        have he := hexpanded (List.range d.field.types.length)
          { before, current := d, after, warnings } ⟨hd, by simp, hafter⟩
        refine ih (meets_append hbefore (by simpa using he.current)) (fun d' hd' => ?_) hresult
        obtain hd' | hd' := List.mem_append.mp hd'
        · exact he.found d' hd'
        · exact he.after d' hd'
      · exact ih (meets_append hbefore (by simpa using hd)) hafter hresult

end Schemata
