import Schemata.Pipeline.Stage
import Schemata.Proofs.Inherit.Flattening
import Schemata.Proofs.Model.Fields
import Schemata.Proofs.Step.Upkeep
import Schemata.Proofs.Store.Flat

/-!
# Flat stores while references are bound

`R` says which names the types of a name mention, and `X` which names stand for simple content; both
are given by the store that flattening starts with. A type stays tame: it mentions what it has
mentioned from the start, directly or through others, and has texts or members only if its content is
simple. When simple content does not lead back to itself, a type with simple content is not found
while it is being worked on, so that what others take from it is bound.

`Store.Binding` is what holds of a flat store meanwhile. `Editing` adds the type that is worked on: it
alone may be unfinished in ways that others see. `Edits` says what a computation that works on this
type does to it, and has a rule for each operation that passes are made of. Names that the type
mentions may be looked up, and what is found has been begun.
-/

namespace Schemata

open Compile SchemaType Relation

/-- A type of a name refers to another name, or a type of the other name stands in for it. -/
def Store.Mentions (s : Store) (q q' : QName) : Prop :=
  (∃ t ∈ s.types, t.qname = q ∧ ∃ l ∈ t.links, l.qname = q') ∨
    ∃ t ∈ s.types, q ∈ t.substitutions ∧ t.qname = q'

/-- A type of the name has a text or members, or may have them from its bases. -/
inductive Store.Textual (s : Store) : QName → Prop
  | field {t : SchemaType} {f : Field} (ht : t ∈ s.types) (hf : f ∈ t.fields)
      (htext : f.isText = true ∨ f.isEnumeration = true) : Textual s t.qname
  | native {t : SchemaType} {e : Extension} (ht : t ∈ s.types) (he : e ∈ t.extensions)
      (hnative : (e.type.native || e.type.qname.isNative) = true) : Textual s t.qname
  | base {t : SchemaType} {e : Extension} (ht : t ∈ s.types) (he : e ∈ t.extensions)
      (hbase : Textual s e.type.qname) : Textual s t.qname

variable {R : QName → QName → Prop} {X : QName → Prop} {s s' : Store} {t b u : SchemaType}
  {f : Field} {ft : FieldType} {e : Extension} {q q' : QName} {h : Handle}

-- ---------------------------------------------------------------------------
-- Tame types
-- ---------------------------------------------------------------------------

structure FieldType.Tame (R : QName → QName → Prop) (q : QName) (ft : FieldType) : Prop where
  forward : ft.forward = false
  mentioned : ft.native = false → TransGen R q ft.qname

/-- Texts and members are simple content. -/
def Tag.Tame (X : QName → Prop) (q : QName) (tag : Tag) : Prop :=
  ({ tag } : Field).isText = true ∨ ({ tag } : Field).isEnumeration = true → X q

abbrev Field.Tame (R : QName → QName → Prop) (X : QName → Prop) (q : QName) (f : Field) : Prop :=
  f.Every (Tag.Tame X q) (FieldType.Tame R q)

structure Extension.Tame (R : QName → QName → Prop) (X : QName → Prop) (q : QName) (e : Extension) :
    Prop where
  type : e.type.Tame R q
  native : (e.type.native || e.type.qname.isNative) = true → X q
  textual : X e.type.qname → X q

structure SchemaType.Tame (R : QName → QName → Prop) (X : QName → Prop) (t : SchemaType) : Prop where
  inner : t.inner = []
  fields : ∀ f ∈ t.fields, f.Tame R X t.qname
  bases : ∀ e ∈ t.extensions, e.Tame R X t.qname
  heads : ∀ head ∈ t.substitutions, R head t.qname

theorem FieldType.Tame.inherit (hft : ft.Tame R q') (hq : TransGen R q q') : ft.Tame R q :=
  ⟨hft.forward, fun hnative => hq.trans (hft.mentioned hnative)⟩

theorem FieldType.tame_ofNative (q' : QName) : (FieldType.ofNative q').Tame R q :=
  ⟨rfl, nofun⟩

/-- What a type takes from one that it mentions is tame. -/
theorem Field.Tame.inherit (hf : f.Tame R X q') (hq : TransGen R q q') (hX : X q' → X q) :
    f.Tame R X q :=
  hf.mono (fun _ htag htext => hX (htag htext)) fun _ hft => hft.inherit hq

theorem Extension.Tame.inherit (he : e.Tame R X q') (hq : TransGen R q q') (hX : X q' → X q) :
    e.Tame R X q :=
  ⟨he.type.inherit hq, fun hnative => hX (he.native hnative), fun htextual => hX (he.textual htextual)⟩

theorem Extension.Tame.congr {e' : Extension} (he : e.Tame R X q) (htype : e'.type = e.type) :
    e'.Tame R X q :=
  ⟨htype ▸ he.type, htype ▸ he.native, htype ▸ he.textual⟩

theorem Field.tame_default : ({} : Field).Tame R X q :=
  ⟨rfl, by rintro (htext | hmember) <;> contradiction, nofun⟩

namespace SchemaType

theorem Tame.getD (ht : t.Tame R X) (i : Nat) : (t.fields[i]?.getD {}).Tame R X t.qname := by
  cases hf : t.fields[i]? with
  | none => exact Field.tame_default
  | some f => exact ht.fields f (List.mem_of_getElem? hf)

/-- A type of which other fields and bases are known stays tame. -/
theorem Tame.congr (ht : t.Tame R X) (halike : Alike t u) (hheads : u.substitutions = t.substitutions)
    (hfields : ∀ f ∈ u.fields, f.Tame R X t.qname) (hbases : ∀ e ∈ u.extensions, e.Tame R X t.qname) :
    u.Tame R X where
  inner := halike.inner.trans ht.inner
  fields := halike.qname ▸ hfields
  bases := halike.qname ▸ hbases
  heads := by
    rw [hheads, halike.qname]
    exact ht.heads

theorem Tame.textual (ht : t.Tame R X) (hf : f ∈ t.fields)
    (htext : f.isText = true ∨ f.isEnumeration = true) : X t.qname :=
  (ht.fields f hf).tag htext

/-- What is seen through has a text. -/
theorem Tame.textual_of_isTransparent (ht : t.Tame R X) (htransparent : t.isTransparent = true) :
    X t.qname := by
  simp only [isTransparent, isSimple, Bool.and_eq_true] at htransparent
  split at htransparent
  case h_1 f hfields =>
    simp only [Bool.and_eq_true] at htransparent
    exact ht.textual (hfields ▸ List.mem_singleton_self f) (.inl htransparent.1.1.2)
  case h_2 => exact absurd htransparent.1 Bool.false_ne_true

theorem Tame.textual_of_isEnumeration (ht : t.Tame R X) (hmembers : t.isEnumeration = true) :
    X t.qname ∧ ∀ f ∈ t.fields, f.isEnumeration = true := by
  simp only [isEnumeration, Bool.and_eq_true, Bool.not_eq_true', List.isEmpty_eq_false_iff,
    List.all_eq_true] at hmembers
  obtain ⟨f, hf⟩ := List.exists_mem_of_ne_nil _ hmembers.1
  exact ⟨ht.textual hf (.inr (hmembers.2 f hf)), hmembers.2⟩

/-- New fields for texts are tame in types of simple content. -/
theorem tame_tags (hX : X q) : Tag.Tame X q .extension ∧ Tag.Tame X q .restriction :=
  ⟨fun _ => hX, fun _ => hX⟩

end SchemaType

end Schemata

-- ---------------------------------------------------------------------------
-- Stores while references are bound
-- ---------------------------------------------------------------------------

namespace Schemata

open Compile SchemaType Relation

variable {α β : Type} {R : QName → QName → Prop} {X : QName → Prop} {s s' : Store}
  {t t' b u : SchemaType} {q : QName} {h : Handle}

/-- A reference is native or bound. -/
def Store.Binds (s : Store) (ft : FieldType) : Prop :=
  ft.native = false → s.Has ft.reference ft.qname

/-- The field that stands for a member of a group of a head. -/
structure Field.StandsIn (R : QName → QName → Prop) (head : QName) (f : Field) : Prop where
  choices : f.choices = []
  tag : f.tag = .element
  types : ∀ ft ∈ f.types, ft.forward = false ∧ R head ft.qname

namespace Store

structure Binding (R : QName → QName → Prop) (X : QName → Prop) (s : Store) : Prop where
  sound : s.Sound
  tame : ∀ t ∈ s.types, t.Tame R X
  status : ∀ t ∈ s.types, t.status < .flattening ∨ t.status = .flattening ∨ t.status = .flattened
  bound : ∀ t ∈ s.types, t.status = .flattened → ∀ ft ∈ t.fieldTypes, s.Binds ft
  substitutes : ∀ p ∈ s.memory.substitutes, p.2.StandsIn R p.1
  wrapped : s.config.output.wrappedLists ≠ .unwrap

theorem Binding.flat (hs : s.Binding R X) : s.Flat :=
  fun t ht => (hs.tame t ht).inner

theorem Moves.binds {active : Option Handle} {ft : FieldType} (hm : Moves active s s') (hs : s.Flat)
    (hft : s.Binds ft) : s'.Binds ft :=
  fun hnative => hm.has hs (hft hnative)

/-- A type of the name can be worked on without coming to a type of simple content that is being
worked on. -/
def Free (R : QName → QName → Prop) (X : QName → Prop) (s : Store) (q : QName) : Prop :=
  ∀ u ∈ s.types, u.status = .flattening → X u.qname → ¬ ReflTransGen R q u.qname

theorem Free.moves (hq : s.Free R X q) (hm : Moves none s s') : s'.Free R X q :=
  fun u hu hbusy => hq u (hm.busy hu hbusy nofun) hbusy

/-- A change of a type that leaves it tame, and bound if it is done. -/
theorem Binding.update (hs : s.Binding R X) (ht : t ∈ s.types) {g : SchemaType → SchemaType}
    (halike : Alike t (g t)) (htame : (g t).Tame R X)
    (hstatus : (g t).status < .flattening ∨ (g t).status = .flattening ∨ (g t).status = .flattened)
    (hbound : (g t).status = .flattened → ∀ ft ∈ (g t).fieldTypes, s.Binds ft) :
    (s.update t.id g).Binding R X ∧
      (∀ {u}, u ∈ (s.update t.id g).types ↔ u = g t ∨ u ∈ s.types ∧ u.id ≠ t.id) ∧
        Moves (some t.id) s (s.update t.id g) := by
  have hmem : ∀ {u}, u ∈ (s.update t.id g).types ↔ u = g t ∨ u ∈ s.types ∧ u.id ≠ t.id :=
    hs.flat.mem_update hs.sound ht
  have hm := Moves.update hs.sound hs.flat ht halike
  refine ⟨⟨?_, ?_, ?_, ?_, hs.substitutes, hs.wrapped⟩, hmem, hm⟩
  · refine hs.sound.update_alike fun u hu hid => ?_
    exact hs.sound.eq_of_id (hs.flat.holds_iff.mp hu) ht hid ▸ halike
  · intro u hu
    obtain rfl | ⟨hu, -⟩ := hmem.mp hu
    · exact htame
    · exact hs.tame u hu
  · intro u hu
    obtain rfl | ⟨hu, -⟩ := hmem.mp hu
    · exact hstatus
    · exact hs.status u hu
  · intro u hu hdone ft hft
    refine hm.binds hs.flat ?_
    obtain rfl | ⟨hu, -⟩ := hmem.mp hu
    · exact hbound hdone ft hft
    · exact hs.bound u hu hdone ft hft

theorem Binding.remember (hs : s.Binding R X) (memory : Memory) (journal : List Event)
    (hmemory : ∀ p ∈ memory.substitutes, p.2.StandsIn R p.1) :
    ({ s with memory, journal } : Store).Binding R X where
  sound := ⟨hs.sound.keys, hs.sound.handles, hs.sound.below, hs.sound.byName, hs.sound.byHandle⟩
  tame := hs.tame
  status := hs.status
  bound := hs.bound
  substitutes := hmemory
  wrapped := hs.wrapped

/-- What holds while references are bound, as something to be kept up. -/
def binding (R : QName → QName → Prop) (X : QName → Prop) : Upkeep where
  Inv := Binding R X
  Leads := Moves none
  Fit s h := ∃ t ∈ s.types, t.id = h ∧ s.Free R X t.qname
  Seek := Free R X
  Rest s := ∀ t ∈ s.types, t.status ≠ .flattening
  refl := .refl none
  trans := .trans
  stays := by
    rintro s s' h hm ⟨t, ht, hid, hfree⟩
    obtain ⟨t', ht', hid', hqname⟩ := hm.exists_root ht
    exact ⟨t', ht', hid'.trans hid, hqname ▸ hfree.moves hm⟩
  sought hm hq := Free.moves hq hm
  rests hm hrest t ht hbusy := hrest t (hm.busy ht hbusy nofun) hbusy
  nested := by
    rintro s h t u hs ⟨t₀, ht₀, rfl, hfree⟩ ht hu
    rw [hs.sound.get?_root ht₀] at ht
    obtain rfl := Option.some.inj ht
    rw [eq_of_within (hs.tame _ ht₀).inner hu]
    exact ⟨t₀, ht₀, rfl, hfree⟩
  found hs hq ht := by
    obtain ⟨hmem, rfl⟩ := hs.sound.mem_of_lookup? ht
    exact ⟨_, hmem, rfl, hq⟩
  swept := by
    intro s s' e t _ hs' hm hrest he ht
    have hmem := List.mem_map_of_mem (f := Entry.outline) he
    rw [← hm.outline] at hmem
    obtain ⟨e', he', heq⟩ := List.mem_map.mp hmem
    have hkey : e'.key = e.key := congrArg (·.1) heq
    rw [← hkey, typeOfKey?_of_mem hs'.sound.keys he'] at ht
    obtain rfl := Option.some.inj ht
    refine ⟨_, List.mem_map_of_mem he', rfl, fun u hu hbusy => ?_⟩
    exact absurd hbusy (hrest u (hm.busy hu hbusy nofun))
  quiet memory journal hmemory hs :=
    ⟨hs.remember memory journal fun p hp => hs.substitutes p (hmemory hp), rfl, fun _ ht _ => .inl ht⟩

end Store

open Store

/-- The type of a handle is being worked on. -/
structure Editing (R : QName → QName → Prop) (X : QName → Prop) (h : Handle) (s : Store)
    (t : SchemaType) : Prop where
  binding : s.Binding R X
  mem : t ∈ s.types
  id : t.id = h
  busy : t.status = .flattening
  free : ∀ u ∈ s.types, u.id ≠ h → u.status = .flattening → X u.qname →
    ¬ ReflTransGen R t.qname u.qname

/-- If the computation does not fail, it works on one type, and `Q` holds of what it makes of it. -/
def Edits (R : QName → QName → Prop) (X : QName → Prop) (h : Handle) (x : Compile α) (s : Store)
    (t : SchemaType) (Q : α → Store → SchemaType → Prop) : Prop :=
  wp x (fun a s' => ∃ t', Editing R X h s' t' ∧ Moves (some h) s s' ∧ t'.qname = t.qname ∧ Q a s' t')
    (fun _ _ => True) s

namespace Editing

theorem flat (ht : Editing R X h s t) : s.Flat :=
  ht.binding.flat

theorem tame (ht : Editing R X h s t) : t.Tame R X :=
  ht.binding.tame t ht.mem

theorem get? (ht : Editing R X h s t) : s.get? h = some t := by
  rw [← ht.id]
  exact ht.binding.sound.get?_root ht.mem

/-- A change that leaves the type tame. -/
theorem update (ht : Editing R X h s t) {g : SchemaType → SchemaType} (halike : Alike t (g t))
    (hstatus : (g t).status = t.status) (htame : (g t).Tame R X) :
    Editing R X h (s.update h g) (g t) ∧ Moves (some h) s (s.update h g) := by
  obtain rfl := ht.id
  have hbusy := hstatus.trans ht.busy
  obtain ⟨hs', hmem, hm⟩ := ht.binding.update ht.mem halike htame (.inr (.inl hbusy)) fun hdone => by
    rw [hbusy] at hdone
    cases hdone
  refine ⟨⟨hs', hmem.mpr (.inl rfl), halike.id, hbusy, fun u hu hne => ?_⟩, hm⟩
  obtain rfl | ⟨hu, -⟩ := hmem.mp hu
  · exact absurd halike.id hne
  · rw [halike.qname]
    exact ht.free u hu hne

/-- What happens meanwhile to other types is of no consequence. -/
theorem moves (ht : Editing R X h s t) (hs' : s'.Binding R X) (hm : Moves none s s') :
    Editing R X h s' t where
  binding := hs'
  mem := by
    refine hm.begun ht.binding.sound ht.mem ?_ nofun
    rw [ht.busy]
    decide
  id := ht.id
  busy := ht.busy
  free u hu hne hbusy := ht.free u (hm.busy hu hbusy nofun) hne hbusy

/-- What the type mentions may be looked up, unless the type leads back to itself. -/
theorem seek (ht : Editing R X h s t) (hX : ∀ q, X q → ¬ TransGen R q q) (hq : TransGen R t.qname q) :
    s.Free R X q := by
  intro u hu hbusy hsimple hreach
  by_cases hid : u.id = h
  · obtain rfl := ht.binding.sound.eq_of_id hu ht.mem (hid.trans ht.id.symm)
    exact hX _ hsimple (hq.trans_left hreach)
  · exact ht.free u hu hid hbusy hsimple (hq.to_reflTransGen.trans hreach)

/-- What has been begun, is mentioned and has simple content is bound. -/
theorem bound_of_textual (ht : Editing R X h s t) (hb : b ∈ s.types) (hne : b.id ≠ h)
    (hbegun : ¬ b.status < .flattening) (hsimple : X b.qname) (hq : TransGen R t.qname b.qname) :
    ∀ ft ∈ b.fieldTypes, s.Binds ft := by
  obtain hpending | hbusy | hdone := ht.binding.status b hb
  · exact absurd hpending hbegun
  · exact absurd hq.to_reflTransGen (ht.free b hb hne hbusy hsimple)
  · exact ht.binding.bound b hb hdone

end Editing

namespace Edits

variable {x : Compile α} {f : α → Compile β} {P : α → Store → SchemaType → Prop}
  {Q : β → Store → SchemaType → Prop}

theorem pure {a : α} (ht : Editing R X h s t) (ha : P a s t) : Edits R X h (Pure.pure a) s t P := by
  unfold Edits
  rw [wp_pure]
  exact ⟨t, ht, .refl _ s, rfl, ha⟩

theorem throw {e : Failure} : Edits R X h (MonadExcept.throw e : Compile α) s t P := by
  unfold Edits
  rw [wp_throw]
  trivial

theorem bind (hx : Edits R X h x s t P)
    (hf : ∀ a s' t', Editing R X h s' t' → Moves (some h) s s' → t'.qname = t.qname → P a s' t' →
      Edits R X h (f a) s' t' Q) : Edits R X h (x >>= f) s t Q := by
  unfold Edits
  rw [wp_bind]
  refine wp_mono hx ?_ fun _ _ htrue => htrue
  rintro a s' ⟨t', ht', hm, hqname, ha⟩
  refine wp_mono (hf a s' t' ht' hm hqname ha) ?_ fun _ _ htrue => htrue
  rintro c s'' ⟨t'', ht'', hm', hqname', hc⟩
  exact ⟨t'', ht'', hm.trans hm', hqname'.trans hqname, hc⟩

theorem mono {P' : α → Store → SchemaType → Prop} (hx : Edits R X h x s t P)
    (hP : ∀ a s' t', Editing R X h s' t' → Moves (some h) s s' → t'.qname = t.qname → P a s' t' →
      P' a s' t') : Edits R X h x s t P' := by
  refine wp_mono hx ?_ fun _ _ htrue => htrue
  rintro a s' ⟨t', ht', hm, hqname, ha⟩
  exact ⟨t', ht', hm, hqname, hP a s' t' ht' hm hqname ha⟩

theorem get_bind {f : Store → Compile β} (hf : Edits R X h (f s) s t Q) :
    Edits R X h (get >>= f) s t Q := by
  unfold Edits
  rw [wp_bind, wp_get]
  exact hf

theorem typeOf_bind {f : SchemaType → Compile β} (ht : Editing R X h s t)
    (hf : Edits R X h (f t) s t Q) : Edits R X h (typeOf h >>= f) s t Q := by
  unfold Edits
  rw [wp_bind, wp_typeOf ht.get?]
  exact hf

theorem fieldOf_bind {f : Field → Compile β} {i : Nat} (ht : Editing R X h s t)
    (hf : Edits R X h (f (t.fields[i]?.getD {})) s t Q) : Edits R X h (fieldOf h i >>= f) s t Q := by
  unfold fieldOf
  rw [bind_assoc]
  refine typeOf_bind ht ?_
  rw [pure_bind]
  exact hf

/-- Another type is read. -/
theorem typeOf_root_bind {f : SchemaType → Compile β} (ht : Editing R X h s t) (hb : b ∈ s.types)
    (hf : Edits R X h (f b) s t Q) : Edits R X h (typeOf b.id >>= f) s t Q := by
  unfold Edits
  rw [wp_bind, wp_typeOf (ht.binding.sound.get?_root hb)]
  exact hf

theorem fieldOf_root_bind {f : Field → Compile β} {i : Nat} (ht : Editing R X h s t) (hb : b ∈ s.types)
    (hf : Edits R X h (f (b.fields[i]?.getD {})) s t Q) :
    Edits R X h (fieldOf b.id i >>= f) s t Q := by
  unfold fieldOf
  rw [bind_assoc]
  refine typeOf_root_bind ht hb ?_
  rw [pure_bind]
  exact hf

theorem update {P : Unit → Store → SchemaType → Prop} (ht : Editing R X h s t)
    {g : SchemaType → SchemaType} (halike : Alike t (g t)) (hstatus : (g t).status = t.status)
    (htame : (g t).Tame R X)
    (hP : ∀ s', Editing R X h s' (g t) → Moves (some h) s s' → P () s' (g t)) :
    Edits R X h (Compile.update h g) s t P := by
  unfold Edits
  rw [wp_update]
  obtain ⟨ht', hm⟩ := ht.update halike hstatus htame
  exact ⟨g t, ht', hm, halike.qname, hP _ ht' hm⟩

/-- A change of the fields. -/
theorem update_fields {P : Unit → Store → SchemaType → Prop} (ht : Editing R X h s t)
    {g : SchemaType → SchemaType} (fs : List Field) (hg : g t = { t with fields := fs })
    (hfields : ∀ f ∈ fs, f.Tame R X t.qname)
    (hP : ∀ s', Editing R X h s' { t with fields := fs } → Moves (some h) s s' →
      P () s' { t with fields := fs }) : Edits R X h (Compile.update h g) s t P := by
  refine update ht (hg ▸ ⟨rfl, rfl, rfl, rfl⟩) (hg ▸ rfl) ?_ (hg ▸ hP)
  rw [hg]
  exact ht.tame.congr ⟨rfl, rfl, rfl, rfl⟩ rfl hfields ht.tame.bases

theorem quiet {P : Unit → Store → SchemaType → Prop} {g : Store → Store} (ht : Editing R X h s t)
    (hg : g s = { s with journal := (g s).journal }) (hP : P () (g s) t) :
    Edits R X h (modify g) s t P := by
  unfold Edits
  rw [wp_modify]
  have hquiet := (Store.binding R X).quiet s.memory (g s).journal (List.Subset.refl _) ht.binding
  have hmoves : Moves none s (g s) := hg ▸ hquiet.2
  exact ⟨t, ht.moves (hg ▸ hquiet.1) hmoves, hmoves.of_none _, rfl, hP⟩

/-- Notes do not matter. -/
theorem record_forM {ds : List Diagnostic} (ht : Editing R X h s t)
    {P : Unit → Store → SchemaType → Prop}
    (hP : ∀ s', Editing R X h s' t → Moves (some h) s s' → P () s' t) :
    Edits R X h (ds.forM fun d => modify (·.record (.noted d))) s t P := by
  induction ds generalizing s with
  | nil => exact .pure ht (hP s ht (.refl _ s))
  | cons d ds ih =>
    rw [List.forM_eq_forM, List.forM_cons]
    refine .bind (P := fun _ _ t' => t' = t) (.quiet ht rfl rfl) ?_
    rintro _ s' _ ht' hm - rfl
    exact ih ht' fun s'' ht'' hm' => hP s'' ht'' (hm.trans hm')

-- ---------------------------------------------------------------------------
-- Look-up
-- ---------------------------------------------------------------------------

/-- What a look-up by name comes to while a type is worked on: the type is as it was, and what is found
has been begun. -/
def Finds (t : SchemaType) (q : QName) (r : Option Handle) (s : Store) (t' : SchemaType) : Prop :=
  t' = t ∧ ∀ k, r = some k → ∃ b ∈ s.types, b.id = k ∧ b.qname = q ∧ ¬ b.status < .flattening

variable {finder : Finder}

theorem find (ht : Editing R X h s t) (hX : ∀ q, X q → ¬ TransGen R q q)
    (hfinder : (binding R X).Serves .flattening finder) (p : SchemaType → Bool)
    (hq : TransGen R t.qname q) : Edits R X h (finder.find q p) s t (Finds t q) := by
  refine wp_mono (hfinder.find q p ht.binding (ht.seek hX hq)) ?_ fun _ _ htrue => htrue
  rintro r s' ⟨hs', hm, hr⟩
  refine ⟨t, ht.moves hs' hm, hm.of_none _, rfl, rfl, fun k hk => ?_⟩
  obtain ⟨-, b, hlookup, hid, hbegun⟩ := hr k hk
  obtain ⟨hb, hqname⟩ := Sound.mem_of_lookup? (Binding.sound hs') hlookup
  exact ⟨b, hb, hid, hqname, hbegun⟩

theorem findPreferred (ht : Editing R X h s t) (hX : ∀ q, X q → ¬ TransGen R q q)
    (hfinder : (binding R X).Serves .flattening finder) (tag : Tag)
    (hq : TransGen R t.qname q) : Edits R X h (finder.findPreferred q tag) s t (Finds t q) := by
  unfold Finder.findPreferred
  generalize preferences tag = ps
  induction ps generalizing s with
  | nil => exact .pure ht ⟨rfl, nofun⟩
  | cons p ps ih =>
    unfold Finder.findPreferred.go
    refine .bind (find ht hX hfinder p hq) ?_
    rintro r s' _ ht' - - ⟨rfl, hr⟩
    cases r with
    | none => exact ih ht'
    | some k => exact .pure ht' ⟨rfl, fun k' hk' => hr k' hk'⟩

end Edits

end Schemata
