import Schemata.Proofs.Inherit.Heritage
import Schemata.Proofs.Store.Index
import Schemata.Value.Defaults

/-!
# Fields that are resolved

What the resolve step is to make of the fields of a type, said without the step: defaults are checked
first, where an enumeration counts with the members that it keeps, and then the fields are checked
against those that the type inherits before anything is done. `Steady` says of a store that no type
inherits anything else while its bases are worked on.
-/

namespace Schemata

variable {s : Store} {t u b : SchemaType} {f f' g : Field} {k : String}

namespace Store

-- ---------------------------------------------------------------------------
-- Defaults
-- ---------------------------------------------------------------------------

/-- The type that a reference leads to. -/
def source? (s : Store) (u : SchemaType) (ft : FieldType) : Option SchemaType :=
  if ft.forward then u.nested? ft.qname
  else s.lookup? ft.qname fun t => ft.reference == 0 || t.id == ft.reference

/-- An enumeration with the members that it keeps. -/
def memberType (s : Store) (u : SchemaType) : SchemaType :=
  { u with fields := (s.checkOverrides u).1 }

/-- Looks for the default of a field in the enumerations among some of its types. The second part is
what the default is bound to. -/
def matchDefault (s : Store) (u : SchemaType) (f : Field) :
    EnumMatch → List FieldType → EnumMatch × Option EnumValue
  | sofar, [] => (sofar, f.defaultEnum)
  | sofar, ft :: fts =>
    if ft.native then s.matchDefault u f sofar fts
    else
      match s.source? u ft with
      | none => s.matchDefault u f sofar fts
      | some source =>
        let enum := s.memberType source
        if !enum.isEnumeration then s.matchDefault u f sofar fts
        else if f.restrictions.tokens then
          if enum.hasAllTokens f.defaultValue then (.found, f.defaultEnum)
          else s.matchDefault u f .noMember fts
        else
          match enum.fields.find? (·.defaultValue == f.defaultValue) with
          | some member => (.found, some ⟨enum.qname, enum.id, member.name⟩)
          | none => s.matchDefault u f .noMember fts

/-- A field, or a choice, whose default has been checked. -/
def checkedField (s : Store) (u : SchemaType) (f : Field) : Field :=
  if f.isEnumeration then f
  else
    let f := f.alignDefault
    if f.defaultValue = "" then f
    else
      let (result, value) := s.matchDefault u f .noEnumeration f.types
      let f := { f with defaultEnum := value }
      match result with
      | .found => f
      | .noMember => f.withoutDefault
      | .noEnumeration =>
        if !f.acceptsDefault then
          { f with types := [.ofNative Native.string], restrictions.tokens := false }
        else f

/-- A field whose default and those of its choices have been checked. -/
def checkedWhole (s : Store) (u : SchemaType) (f : Field) : Field :=
  { s.checkedField u f with choices := (s.checkedField u f).choices.map (s.checkedField u) }

/-- The fields of a type that are left when defaults and overrides have been checked. -/
def resolvedFields (s : Store) (u : SchemaType) : List Field :=
  (s.checkOverrides { u with fields := u.fields.map (s.checkedWhole u) }).1

end Store

namespace Field

/-- What a check of defaults leaves alone. -/
structure Akin (f f' : Field) : Prop where
  name : f'.name = f.name
  tag : f'.tag = f.tag
  ns : f'.ns = f.ns
  choices : f'.choices = f.choices

theorem Akin.key (h : Akin f f') : f'.key = f.key :=
  congrArg Name.key h.name

theorem akin_alignDefault (f : Field) : Akin f f.alignDefault := by
  unfold alignDefault
  dsimp only
  split <;> split <;> exact ⟨rfl, rfl, rfl, rfl⟩

theorem types_alignDefault (f : Field) : f.alignDefault.types = f.types := by
  unfold alignDefault
  dsimp only
  split <;> split <;> rfl

theorem withDefaultEnum_eq {value : Option EnumValue} (h : value = f.defaultEnum) :
    { f with defaultEnum := value } = f := by
  cases f
  subst h
  rfl

theorem withChoices_eq {cs : List Field} (h : f.choices = cs) : { f with choices := cs } = f := by
  cases f
  subst h
  rfl

/-- A default that is left is the one that was there. -/
theorem defaultValue_alignDefault (h : f.alignDefault.defaultValue ≠ "") :
    f.alignDefault.defaultValue = f.defaultValue := by
  have hopt : ∀ f' : Field, (if f'.cannotDefault then f'.withoutDefault else f').defaultValue ≠ "" →
      (if f'.cannotDefault then f'.withoutDefault else f').defaultValue = f'.defaultValue := by
    intro f' h
    split at h
    case isTrue => exact absurd rfl h
    case isFalse hcan => rw [if_neg hcan]
  unfold alignDefault at h ⊢
  refine (hopt _ h).trans ?_
  split <;> rfl

end Field

namespace Store

theorem checkedField_of_isEnumeration (h : f.isEnumeration = true) : s.checkedField u f = f := by
  rw [checkedField, if_pos h]

theorem akin_checkedField (s : Store) (u : SchemaType) (f : Field) :
    f.Akin (s.checkedField u f) := by
  have h := f.akin_alignDefault
  unfold checkedField
  dsimp only
  split
  · exact ⟨rfl, rfl, rfl, rfl⟩
  split
  · exact h
  split
  · exact ⟨h.name, h.tag, h.ns, h.choices⟩
  · exact ⟨h.name, h.tag, h.ns, h.choices⟩
  · split <;> exact ⟨h.name, h.tag, h.ns, h.choices⟩

/-- A check that leaves the face of a field as it is has not touched it on the way either. -/
theorem face_alignDefault (hmember : f.isEnumeration = false)
    (h : (s.checkedField u f).face = f.face) : f.alignDefault.face = f.face := by
  unfold checkedField at h
  rw [hmember, if_neg Bool.false_ne_true] at h
  dsimp only at h
  split at h
  case isTrue => exact h
  case isFalse hdefault =>
    split at h
    · exact h
    · -- a default that is dropped has been there
      have hvalue := congrArg Face.defaultValue h
      rw [Field.defaultValue_alignDefault hdefault] at hdefault
      exact absurd hvalue.symm hdefault
    · split at h
      · have hrest := congrArg (fun face : Face => { face with types := f.types.map FieldType.qname }) h
        rw [Field.face, Field.types_alignDefault]
        exact hrest
      · exact h

-- ---------------------------------------------------------------------------
-- Bases that are worked on
-- ---------------------------------------------------------------------------

/-- A field on the way through the check of its default. -/
structure Underway (s : Store) (u : SchemaType) (f f' : Field) : Prop where
  name : f'.name = f.name
  tag : f'.tag = f.tag
  face : (s.checkedField u f).face = f.face → f'.face = f.face

theorem Underway.refl (s : Store) (u : SchemaType) (f : Field) : s.Underway u f f :=
  ⟨rfl, rfl, fun _ => rfl⟩

theorem underway_alignDefault (hmember : f.isEnumeration = false) :
    s.Underway u f f.alignDefault :=
  ⟨f.akin_alignDefault.name, f.akin_alignDefault.tag, face_alignDefault hmember⟩

theorem underway_checkedField (s : Store) (u : SchemaType) (f : Field) :
    s.Underway u f (s.checkedField u f) :=
  ⟨(s.akin_checkedField u f).name, (s.akin_checkedField u f).tag, id⟩

theorem Underway.withChoices (h : s.Underway u f f') (choices : List Field) :
    s.Underway u f { f' with choices } :=
  ⟨h.name, h.tag, h.face⟩

/-- The fields of a type while the step is at work: on the way through the checks, or resolved. -/
inductive Shows (s : Store) (u : SchemaType) (fs : List Field) : Prop
  | underway (h : List.Forall₂ (s.Underway u) u.fields fs)
  | done (h : fs = s.resolvedFields u)

/-- A field of a base of a type is settled: the base does not rename it, it looks the same as long as
it is there if the type has a field of its key, and if the base drops it another one behind it stands
for it. -/
structure SettledField (s : Store) (t b : SchemaType) (f : Field) (behind : List Field) : Prop where
  overrides : ∀ base, (s.inheritedFields b).lookup f.key = some base → f.overrides base = true
  face : (∃ g ∈ t.fields, g.key = f.key) → (s.checkedField b f).face = f.face
  covered : OverrideCheck.drops (s.inheritedFields b) (s.checkedField b f) = true →
    ∃ g, behind.find? (·.key == f.key) = some g ∧
      ((∃ g ∈ t.fields, g.key = f.key) → g.face = f.face)

/-- All the fields of the bases of a type, from some on, are settled. -/
def SettledFields (s : Store) (t : SchemaType) : List (SchemaType × Field) → Prop
  | [] => True
  | (b, f) :: behind => s.SettledField t b f (behind.map (·.2)) ∧ s.SettledFields t behind

/-- Enumerations have members only, without choices, and what is inherited is settled. -/
structure Steady (s : Store) : Prop where
  members : ∀ u, s.Holds u → u.hasEnumerations = true →
    ∀ f ∈ u.fields, f.isEnumeration = true ∧ f.choices = []
  settled : ∀ t, s.Holds t → s.SettledFields t (s.heritage t)

theorem settledField_iff {behind : List Field} : s.SettledField t b f behind ↔
    ((s.inheritedFields b).lookup f.key).all f.overrides = true ∧
    ((∃ g ∈ t.fields, g.key = f.key) → (s.checkedField b f).face = f.face) ∧
    (OverrideCheck.drops (s.inheritedFields b) (s.checkedField b f) = true →
      ((behind.find? (·.key == f.key)).any fun g =>
        decide ((∃ g ∈ t.fields, g.key = f.key) → g.face = f.face)) = true) := by
  simp only [Option.all_eq_true, Option.any_eq_true, decide_eq_true_eq]
  exact ⟨fun h => ⟨h.overrides, h.face, h.covered⟩, fun h => ⟨h.1, h.2.1, h.2.2⟩⟩

instance {behind : List Field} : Decidable (s.SettledField t b f behind) :=
  decidable_of_iff' _ settledField_iff

instance decidableSettledFields : (inherited : List (SchemaType × Field)) → Decidable (s.SettledFields t inherited)
  | [] => .isTrue trivial
  | (b, f) :: behind =>
    have := decidableSettledFields behind
    inferInstanceAs (Decidable (s.SettledField t b f (behind.map (·.2)) ∧ s.SettledFields t behind))

theorem steady_iff : s.Steady ↔
    (∀ u ∈ SchemaType.walkAll s.types, u.hasEnumerations = true →
      ∀ f ∈ u.fields, f.isEnumeration = true ∧ f.choices = []) ∧
    ∀ t ∈ SchemaType.walkAll s.types, s.SettledFields t (s.heritage t) := by
  simp only [← holds_iff_mem_walkAll]
  exact ⟨fun h => ⟨h.members, h.settled⟩, fun h => ⟨h.1, h.2⟩⟩

instance : Decidable s.Steady :=
  decidable_of_iff' _ steady_iff

theorem SettledFields.of_mem {fs : List Field} {behind : List (SchemaType × Field)}
    (h : s.SettledFields t (fs.map (b, ·) ++ behind)) :
    ∀ f ∈ fs, ∀ base, (s.inheritedFields b).lookup f.key = some base → f.overrides base = true := by
  induction fs with
  | nil => exact fun f hf => absurd hf List.not_mem_nil
  | cons f fs ih => exact List.forall_mem_cons.mpr ⟨h.1.overrides, ih h.2⟩

theorem SettledFields.thins_underway {fs fs' rest' : List Field} {behind : List (SchemaType × Field)}
    (h : s.SettledFields t (fs.map (b, ·) ++ behind)) (hfs : List.Forall₂ (s.Underway b) fs fs')
    (hrest : s.SettledFields t behind → Thins (fun k => ∃ f ∈ t.fields, f.key = k) (behind.map (·.2)) rest') :
    Thins (fun k => ∃ f ∈ t.fields, f.key = k) ((fs.map (b, ·) ++ behind).map (·.2)) (fs' ++ rest') := by
  induction hfs with
  | nil => exact hrest h
  | @cons f f' fs fs' hf _ ih =>
    exact .keep (congrArg Name.key hf.name) (fun hheeds => hf.face (h.1.face hheeds)) (ih h.2)

theorem SettledFields.thins_filter {fs rest' : List Field} {behind : List (SchemaType × Field)}
    (h : s.SettledFields t (fs.map (b, ·) ++ behind))
    (hrest : s.SettledFields t behind → Thins (fun k => ∃ f ∈ t.fields, f.key = k) (behind.map (·.2)) rest') :
    Thins (fun k => ∃ f ∈ t.fields, f.key = k) ((fs.map (b, ·) ++ behind).map (·.2))
      ((fs.map (s.checkedWhole b)).filter (!OverrideCheck.drops (s.inheritedFields b) ·) ++ rest') := by
  induction fs with
  | nil => exact hrest h
  | cons f fs ih =>
    have hakin := s.akin_checkedField b f
    rw [List.map_cons, List.map_cons, List.filter_cons]
    split
    case isTrue => exact .keep hakin.key h.1.face (ih h.2)
    case isFalse hdrops =>
      rw [Bool.not_eq_true', Bool.not_eq_false] at hdrops
      obtain ⟨g, hfind, hface⟩ := h.1.covered hdrops
      exact .drop hfind hface (ih h.2)

theorem resolvedFields_of_overrides (hoverrides : ∀ f ∈ b.fields, ∀ base,
    (s.inheritedFields b).lookup f.key = some base → f.overrides base = true) :
    s.resolvedFields b =
      (b.fields.map (s.checkedWhole b)).filter (!OverrideCheck.drops (s.inheritedFields b) ·) := by
  refine (OverrideCheck.kept_foldl fun f hf base hbase => ?_) _
  obtain ⟨g, hg, rfl⟩ := List.mem_map.mp hf
  have hakin := s.akin_checkedField b g
  have hkey : (s.checkedWhole b g).key = g.key := hakin.key
  rw [hkey] at hbase
  exact (Field.overrides_congr hakin.tag hakin.ns).trans (hoverrides g hg base hbase)

/-- What a type inherits is thinned out while its bases are worked on. -/
theorem SettledFields.thins {bases : List SchemaType} {shown : SchemaType → List Field}
    (h : s.SettledFields t (bases.flatMap fun b => b.fields.map (b, ·)))
    (hshown : ∀ b ∈ bases, s.Shows b (shown b)) :
    Thins (fun k => ∃ f ∈ t.fields, f.key = k)
      ((bases.flatMap fun b => b.fields.map (b, ·)).map (·.2)) (bases.flatMap shown) := by
  induction bases with
  | nil => exact .nil
  | cons b bases ih =>
    obtain ⟨hb, hbases⟩ := List.forall_mem_cons.mp hshown
    rw [List.flatMap_cons] at h ⊢
    rw [List.flatMap_cons]
    cases hb with
    | underway hb => exact h.thins_underway hb fun hrest => ih hrest hbases
    | done hb =>
      rw [hb, resolvedFields_of_overrides h.of_mem]
      exact h.thins_filter fun hrest => ih hrest hbases

-- ---------------------------------------------------------------------------
-- Enumerations
-- ---------------------------------------------------------------------------

theorem isEnumeration_eq_false (h : t.hasEnumerations = false) : t.isEnumeration = false := by
  rw [SchemaType.hasEnumerations, List.any_eq_false] at h
  rw [SchemaType.isEnumeration]
  cases hfs : t.fields with
  | nil => rfl
  | cons f fs => simp [h f (hfs ▸ List.mem_cons_self)]

/-- A type without members has none in the end, whatever is checked first. -/
theorem hasEnumerations_checkOverrides (h : t.hasEnumerations = false) :
    { t with fields := (s.checkOverrides t).1 }.hasEnumerations = false := by
  rw [SchemaType.hasEnumerations, List.any_eq_false] at h ⊢
  intro f hf
  obtain hf | ⟨g, hg, htag⟩ := OverrideCheck.exists_of_mem_kept _ hf
  · exact absurd hf List.not_mem_nil
  · rw [Field.isEnumeration, ← htag]
    exact h g hg

theorem hasEnumerations_of_tags {fs : List Field} (hmembers : u.hasEnumerations = false)
    (hfs : List.Forall₂ (fun f f' => f'.tag = f.tag) u.fields fs) :
    { u with fields := fs }.hasEnumerations = false := by
  rw [SchemaType.hasEnumerations, List.any_eq_false] at hmembers ⊢
  intro f' hf'
  obtain ⟨f, hf, htag⟩ := Lists.exists_mem_of_forall₂ hfs hf'
  rw [Field.isEnumeration, htag]
  exact hmembers f hf

theorem forall₂_checkedWhole {R : Field → Field → Prop} {fs : List Field}
    (h : ∀ f ∈ fs, R f (s.checkedWhole u f)) : List.Forall₂ R fs (fs.map (s.checkedWhole u)) := by
  rw [List.forall₂_map_right_iff, List.forall₂_same]
  exact h

/-- An enumeration is left with the members that it keeps. -/
theorem Steady.resolvedFields_of_members (hs : s.Steady) (hu : s.Holds u)
    (hmembers : u.hasEnumerations = true) : s.resolvedFields u = (s.memberType u).fields := by
  have hwhole : ∀ f ∈ u.fields, s.checkedWhole u f = f := by
    intro f hf
    obtain ⟨henum, hchoices⟩ := hs.members u hu hmembers f hf
    rw [checkedWhole, checkedField_of_isEnumeration henum, hchoices, List.map_nil, ← hchoices]
    cases f
    rfl
  rw [resolvedFields, List.map_congr_left hwhole, List.map_id']
  rfl

end Store

end Schemata
