import Schemata.Proofs.Binding.Flattened

/-!
# References after flattening

Flattening binds references type by type, while types refer to each other in circles and what one type
takes from another is bound or not. In a flat store where simple content does not lead back to itself
it leaves every reference bound. With nested types it does not: a nested type that is copied while it
is worked on stays as it was then.
-/

namespace Schemata

open Compile SchemaType Relation Store

variable {s s' : Store} {t u : SchemaType}

/-- What flattening starts with: no type has been begun, groups are gone, fields are not merged and
references not flagged, and references forward lead to nested types. -/
structure Store.Declared (s : Store) : Prop where
  sound : s.Sound
  positive : ∀ h ∈ s.handles, 0 < h
  pending : ∀ t, s.Holds t → t.status < .flattening
  groups : ∀ t, s.Holds t → t.isGroup = false ∧ ∀ f ∈ t.fields, f.isGroup = false
  choices : ∀ t, s.Holds t → ∀ f ∈ t.fields, f.choices = []
  circular : ∀ t, s.Holds t → ∀ ft ∈ t.fieldTypes, ft.circular = false
  forward : ∀ t, s.Holds t → ∀ ft ∈ t.fieldTypes, ft.forward = true →
    ∃ u ∈ walkAll t.inner, u.qname = ft.qname

namespace Store

theorem Declared.dependency (hs : s.Declared) (hflat : s.Flat) (ht : t ∈ s.types) {ft : FieldType}
    (hft : ft ∈ t.fieldTypes) : ft.forward = false := by
  rw [← Bool.not_eq_true]
  intro hforward
  obtain ⟨u, hu, -⟩ := hs.forward t (holds_of_mem_types ht) ft hft hforward
  rw [hflat t ht] at hu
  exact List.not_mem_nil hu

theorem Declared.tame (hs : s.Declared) (hflat : s.Flat) (ht : t ∈ s.types) :
    t.Tame s.Mentions s.Textual := by
  have htype : ∀ ft ∈ t.fieldTypes, ft.Tame s.Mentions t.qname := by
    refine fun ft hft => ⟨hs.dependency hflat ht hft, fun hnative => .single (.inl ⟨t, ht, rfl, ?_⟩)⟩
    refine ⟨⟨ft.forward, ft.reference, ft.qname⟩, mem_links_iff.mpr ⟨ft, hft, ?_⟩, rfl⟩
    rw [FieldType.link?, hnative]
    rfl
  refine ⟨hflat t ht, fun f hf => ⟨?_, ?_, ?_⟩, fun e he => ⟨?_, ?_, ?_⟩, ?_⟩
  · exact hs.choices t (holds_of_mem_types ht) f hf
  · exact fun htext => .field ht hf htext
  · exact fun ft hft => htype ft (mem_fieldTypes_iff.mpr (.inl ⟨f, hf, .own hft⟩))
  · exact htype e.type (mem_fieldTypes_iff.mpr (.inr ⟨e, he, rfl⟩))
  · exact fun hnative => .native ht he hnative
  · exact fun hbase => .base ht he hbase
  · exact fun head hhead => .inr ⟨t, ht, hhead, rfl⟩

theorem Declared.binding (hs : s.Declared) (hflat : s.Flat)
    (hwrapped : s.config.output.wrappedLists ≠ .unwrap) :
    ({ s with memory := {} } : Store).Binding s.Mentions s.Textual where
  sound := ⟨hs.sound.keys, hs.sound.handles, hs.sound.below, hs.sound.byName, hs.sound.byHandle⟩
  tame _ ht := hs.tame hflat ht
  status t ht := .inl (hs.pending t (holds_of_mem_types ht))
  bound t ht hdone := by
    have hpending := hs.pending t (holds_of_mem_types ht)
    rw [hdone] at hpending
    exact absurd hpending (by decide)
  substitutes := nofun
  wrapped := hwrapped

theorem Declared.rest (hs : s.Declared) : ∀ t ∈ s.types, t.status ≠ .flattening := by
  intro t ht hbusy
  have hpending := hs.pending t (holds_of_mem_types ht)
  rw [hbusy] at hpending
  exact absurd hpending (by decide)

end Store

/-- Flattening binds every reference of a flat store to a root of its name, in whatever order the roots
come and however they refer to each other through elements, attributes, bases and substitution
groups, as long as lists stay wrapped and types of simple content do not lead back to themselves. -/
theorem flatten_binds_references (hs : s.Declared) (hflat : s.Flat)
    (hwrapped : s.config.output.wrappedLists ≠ .unwrap)
    (hcontent : ∀ q, s.Textual q → ¬ TransGen s.Mentions q q) (cancelled : Bool) :
    wp (Step.flatten.run cancelled)
      (fun _ s' =>
        s'.roots.map Entry.outline = s.roots.map Entry.outline ∧
        (∀ u, s'.Holds u → u.status = .flattened) ∧
        ∀ u, s'.Holds u → ∀ l ∈ u.links, l.target ≠ 0 ∧ s'.Has l.target l.qname)
      (fun _ _ => True) s := by
  rw [← wp_run_forget]
  refine wp_mono ((steps_flatten hcontent).sweeps.run_keeps cancelled (hs.binding hflat hwrapped) hs.rest) ?_
    fun _ _ htrue => htrue
  rintro _ s' ⟨hs', hm, hbegun⟩
  have hs' : s'.Binding s.Mentions s.Textual := hs'
  have hm : Moves none { s with memory := {} } s' := hm
  have hdone : ∀ u, s'.Holds u → u.status = .flattened := by
    intro u hu
    have hu := hs'.flat.holds_iff.mp hu
    obtain hpending | hbusy | hdone := hs'.status u hu
    · exact absurd hpending (hbegun u hu)
    · exact absurd hbusy (hs.rest u (hm.busy hu hbusy (Option.some_ne_none _)))
    · exact hdone
  refine ⟨hm.outline, hdone, fun u hu l hl => ?_⟩
  obtain ⟨ft, hft, hlink⟩ := mem_links_iff.mp hl
  obtain ⟨hnative, rfl⟩ : ft.native = false ∧ l = ⟨ft.forward, ft.reference, ft.qname⟩ := by
    unfold FieldType.link? at hlink
    split at hlink
    · cases hlink
    case isFalse hnative => exact ⟨Bool.eq_false_iff.mpr hnative, (Option.some.inj hlink).symm⟩
  have hhas := hs'.bound u (hs'.flat.holds_iff.mp hu) (hdone u hu) ft hft hnative
  refine ⟨?_, hhas⟩
  obtain ⟨v, hv, hid, -⟩ := hs'.flat.has_iff.mp hhas
  obtain ⟨v₀, hv₀, hid₀, -⟩ := exists_of_outline hm.outline hv
  have hpositive := hs.positive v₀.id (mem_handles_iff.mpr ⟨v₀, holds_of_mem_types hv₀, rfl⟩)
  rw [hid₀, hid] at hpositive
  exact hpositive.ne'

namespace Entwined

/-- Two records that refer to each other, the second derived from the first, and two simple types. -/
def store : Store :=
  ({} : Store).insertAll [
    { qname := ⟨"urn:t", "A"⟩, tag := .complexType
      fields := [
        { tag := .element, name := "b", types := [.ofDependency ⟨"urn:t", "B"⟩] },
        { tag := .element, name := "s", types := [.ofDependency ⟨"urn:t", "S"⟩] }] },
    { qname := ⟨"urn:t", "B"⟩, tag := .complexType
      fields := [
        { tag := .element, name := "a", types := [.ofDependency ⟨"urn:t", "A"⟩] },
        { tag := .any, name := "rest", types := [.ofNative Native.anyType] }]
      extensions := [{ tag := .extension, type := .ofDependency ⟨"urn:t", "A"⟩ }] },
    { qname := ⟨"urn:t", "S"⟩, tag := .simpleType
      fields := [{ tag := .restriction, name := "value", types := [.ofDependency ⟨"urn:t", "V"⟩] }] },
    { qname := ⟨"urn:t", "V"⟩, tag := .simpleType
      fields := [{ tag := .restriction, name := "value", types := [.ofNative Native.string] }] }]

theorem declared_store : store.Declared := by
  refine ⟨.insertAll (.empty {}) (.empty {}) (by decide), by decide +kernel, ?_, ?_, ?_, ?_, ?_⟩
  all_goals
    simp only [Store.holds_iff_mem_walkAll]
    decide +kernel

/-- The simple types do not lead back to themselves, and they alone have simple content. -/
theorem content_store (q : QName) (hq : store.Textual q) : ¬ TransGen store.Mentions q q := by
  have hmentions : ∀ {q q'}, store.Mentions q q' →
      (q = ⟨"urn:t", "S"⟩ → q' = ⟨"urn:t", "V"⟩) ∧ q ≠ ⟨"urn:t", "V"⟩ := by
    have hlinks : ∀ t ∈ store.types, ∀ l ∈ t.links,
        (t.qname = ⟨"urn:t", "S"⟩ → l.qname = ⟨"urn:t", "V"⟩) ∧ t.qname ≠ ⟨"urn:t", "V"⟩ := by
      decide +kernel
    have hheads : ∀ t ∈ store.types, t.substitutions = [] := by decide +kernel
    rintro _ _ (⟨t, ht, rfl, l, hl, rfl⟩ | ⟨t, ht, hhead, -⟩)
    · exact hlinks t ht l hl
    · exact absurd (hheads t ht ▸ hhead) List.not_mem_nil
  have htextual : q = ⟨"urn:t", "S"⟩ ∨ q = ⟨"urn:t", "V"⟩ := by
    induction hq with
    | @field t f ht hf htext =>
      have hfields : ∀ t ∈ store.types, ∀ f ∈ t.fields, f.isText = true ∨ f.isEnumeration = true →
          t.qname = ⟨"urn:t", "S"⟩ ∨ t.qname = ⟨"urn:t", "V"⟩ := by decide +kernel
      exact hfields t ht f hf htext
    | @native t e ht he hnative =>
      have hbases : ∀ t ∈ store.types, ∀ e ∈ t.extensions,
          (e.type.native || e.type.qname.isNative) = false := by decide +kernel
      rw [hbases t ht e he] at hnative
      cases hnative
    | @base t e ht he _ ih =>
      have hbases : ∀ t ∈ store.types, ∀ e ∈ t.extensions, e.type.qname = ⟨"urn:t", "A"⟩ := by
        decide +kernel
      rw [hbases t ht e he] at ih
      exact absurd ih (by decide)
  intro hcycle
  obtain ⟨q', hfirst, hrest⟩ := TransGen.head'_iff.mp hcycle
  obtain rfl | rfl := htextual
  · obtain rfl := (hmentions hfirst).1 rfl
    obtain heq | ⟨q'', hsecond, -⟩ := hrest.cases_head
    · exact absurd heq (by decide)
    · exact (hmentions hsecond).2 rfl
  · exact (hmentions hfirst).2 rfl

theorem flatten_binds :
    (store.Declared ∧ store.Flat ∧ store.config.output.wrappedLists ≠ .unwrap ∧
      ∀ q, store.Textual q → ¬ TransGen store.Mentions q q) ∧
    wp (Step.flatten.run false) (fun _ s' => s'.types.length = 4) (fun _ _ => False) store ∧
    wp (Step.flatten.run false)
      (fun _ s' =>
        s'.roots.map Entry.outline = store.roots.map Entry.outline ∧
        (∀ u, s'.Holds u → u.status = .flattened) ∧
        ∀ u, s'.Holds u → ∀ l ∈ u.links, l.target ≠ 0 ∧ s'.Has l.target l.qname)
      (fun _ _ => True) store := by
  have hflat : ∀ t ∈ store.types, t.inner = [] := by decide +kernel
  have hwrapped : store.config.output.wrappedLists ≠ .unwrap := by decide +kernel
  refine ⟨⟨declared_store, hflat, hwrapped, content_store⟩, by decide +kernel, ?_⟩
  exact flatten_binds_references declared_store hflat hwrapped content_store false

end Entwined

namespace Recursive

/-- A record with a nested record that refers to a record derived from the outer one. -/
def store : Store :=
  ({} : Store).insertAll [
    { qname := ⟨"urn:t", "S"⟩, tag := .complexType
      fields := [{ tag := .element, name := "a", types := [.ofForward ⟨"urn:t", "I"⟩ 0] }]
      inner := [
        { qname := ⟨"urn:t", "I"⟩, tag := .complexType
          fields := [{ tag := .element, name := "x", types := [.ofDependency ⟨"urn:t", "T"⟩] }] }] },
    { qname := ⟨"urn:t", "T"⟩, tag := .complexType
      fields := [{ tag := .any, name := "rest" }]
      extensions := [{ tag := .extension, type := .ofDependency ⟨"urn:t", "S"⟩ }] }]

/-- Not every reference is bound: the derived record gets a copy of the nested one while it is worked
on, and the reference of the copy stays unbound. -/
theorem flatten_leaves_unbound :
    store.Declared ∧
    wp (Step.flatten.run false)
      (fun _ s' => ∃ u ∈ walkAll s'.types, u.qname = ⟨"urn:t", "I"⟩ ∧
        ∃ l ∈ u.links, l.qname = ⟨"urn:t", "T"⟩ ∧ l.target = 0)
      (fun _ _ => False) store := by
  refine ⟨⟨.insertAll (.empty {}) (.empty {}) (by decide), by decide +kernel, ?_, ?_, ?_, ?_, ?_⟩,
    by decide +kernel⟩
  all_goals
    simp only [Store.holds_iff_mem_walkAll]
    decide +kernel

end Recursive

end Schemata
