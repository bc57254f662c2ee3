import Schemata.Proofs.Binding.Promotion
import Schemata.Proofs.Model.Fields
import Schemata.Proofs.Step.InsideOut
import Schemata.Proofs.Store.Exchange

/-!
# Dependencies on the name of a promoted type

A dependency honours a type, by its name, if it is bound to the type as long as no other root has the
name. While types are flattened every dependency on the name that there is honours the type: promotion
makes it so, look-ups keep to it, and whatever is copied takes it along. Since a look-up may work on other
types in between, it also matters what these leave alone: of a type that is begun only forward references
change, when an enclosing type promotes what they lead to.
-/

namespace Schemata

open Compile SchemaType

variable {q : QName} {i h next : Handle} {active : Option Handle} {s s' s'' : Store}
  {t t' u v r : SchemaType} {ft : FieldType} {f : Field} {e : Extension} {apart extra : List SchemaType}

/-- What a change makes of every type, it makes of all that a field refers to. -/
theorem Field.throughout_mapTypes {P P' : FieldType → Prop} {g : FieldType → FieldType} {fs : List Field}
    (hfs : ∀ f ∈ fs, f.Throughout P) (hg : ∀ ft, P ft → P' (g ft)) :
    ∀ f ∈ fs.map (Field.mapTypes g), f.Throughout P' := by
  intro f hf
  obtain ⟨f₀, hf₀, rfl⟩ := List.mem_map.mp hf
  refine Field.throughout_iff.mpr fun ft hft => ?_
  rw [Field.allTypes_mapTypes] at hft
  obtain ⟨ft₀, hft₀, rfl⟩ := List.mem_map.mp hft
  exact hg ft₀ (Field.throughout_iff.mp (hfs f₀ hf₀) ft₀ hft₀)

/-- Roots stay roots, under their names. -/
def Store.KeepsRoots (s s' : Store) : Prop :=
  ∀ r ∈ s.types, ∃ r' ∈ s'.types, r'.id = r.id ∧ r'.qname = r.qname

theorem Store.KeepsRoots.refl (s : Store) : s.KeepsRoots s :=
  fun r hr => ⟨r, hr, rfl, rfl⟩

theorem Store.KeepsRoots.trans (hroots : s.KeepsRoots s') (hroots' : s'.KeepsRoots s'') :
    s.KeepsRoots s'' := by
  intro r hr
  obtain ⟨r', hr', hid, hq⟩ := hroots r hr
  obtain ⟨r'', hr'', hid', hq'⟩ := hroots' r' hr'
  exact ⟨r'', hr'', hid'.trans hid, hq'.trans hq⟩

/-- A dependency on the name is bound to a root of the name. As long as the name is that of another root
than the one with the handle, it may also be unbound. -/
def FieldType.Honours (s : Store) (q : QName) (i : Handle) (ft : FieldType) : Prop :=
  ft.isDependency = true → ft.qname = q →
    (∃ r ∈ s.types, r.qname = q ∧ r.id = ft.reference) ∨
      ft.reference = 0 ∧ ∃ r ∈ s.types, r.qname = q ∧ r.id ≠ i

namespace FieldType.Honours

theorem mono (hft : ft.Honours s q i) (hroots : s.KeepsRoots s') : ft.Honours s' q i := by
  intro hdependency hq
  obtain ⟨r, hr, hrq, hbound⟩ | ⟨hzero, r, hr, hrq, hne⟩ := hft hdependency hq
  · obtain ⟨r', hr', hid, hq'⟩ := hroots r hr
    exact .inl ⟨r', hr', hq'.trans hrq, hid.trans hbound⟩
  · obtain ⟨r', hr', hid, hq'⟩ := hroots r hr
    exact .inr ⟨hzero, r', hr', hq'.trans hrq, hid.symm ▸ hne⟩

theorem of_forward (hft : ft.forward = true) : ft.Honours s q i := by
  intro hdependency
  simp [isDependency, hft] at hdependency

theorem of_native (hft : ft.native = true) : ft.Honours s q i := by
  intro hdependency
  simp [isDependency, hft] at hdependency

/-- A dependency that is bound to a root of its name. -/
theorem of_root (hr : r ∈ s.types) (hq : r.qname = ft.qname) (hbound : ft.reference = r.id) :
    ft.Honours s q i :=
  fun _ hftq => .inl ⟨r, hr, hq.trans hftq, hbound.symm⟩

/-- References may be led elsewhere, but not those to roots. -/
theorem move (hft : ft.Honours s q i) {move : Handle → Handle} (hzero : move 0 = 0)
    (hroots : ∀ r ∈ s.types, move r.id = r.id) :
    FieldType.Honours s q i { ft with reference := move ft.reference } := by
  intro hdependency hq
  obtain ⟨r, hr, hrq, hbound⟩ | ⟨hunbound, r, hr, hrq, hne⟩ := hft hdependency hq
  · exact .inl ⟨r, hr, hrq, by dsimp only; rw [← hbound, hroots r hr]⟩
  · exact .inr ⟨by dsimp only; rw [hunbound, hzero], r, hr, hrq, hne⟩

end FieldType.Honours

/-- A base that is no forward reference, and that honours roots if it is a dependency on the name. -/
structure Extension.Honours (s : Store) (q : QName) (i : Handle) (e : Extension) : Prop where
  forward : e.type.forward = false
  type : e.type.Honours s q i

namespace SchemaType

/-- All dependencies on the name honour roots, and once the type is begun all that is nested in it is. -/
structure Honest (s : Store) (q : QName) (i : Handle) (u : SchemaType) : Prop where
  handle : u.id ≠ 0
  begun : ¬ u.status < .flattening → u.pending .flattening = []
  fields : ∀ f ∈ u.fields, f.Throughout (FieldType.Honours s q i)
  bases : ∀ e ∈ u.extensions, e.Honours s q i
  /-- The type itself is in no substitution group, so that nothing but promotion refers to it. -/
  heads : u.id = i → u.substitutions = []

theorem Honest.mono (hu : u.Honest s q i) (hroots : s.KeepsRoots s') : u.Honest s' q i where
  handle := hu.handle
  begun := hu.begun
  fields f hf := Field.throughout_mono (hu.fields f hf) fun _ hft => hft.mono hroots
  bases e he := ⟨(hu.bases e he).forward, (hu.bases e he).type.mono hroots⟩
  heads := hu.heads

/-- The fields and bases are as they were, but forward references may have changed. -/
def Resembles (u u' : SchemaType) : Prop :=
  ∃ g : FieldType → FieldType, (∀ ft, ft.forward = false → g ft = ft) ∧
    u'.fields = u.fields.map (Field.mapTypes g) ∧
    u'.extensions = u.extensions.map fun e => { e with type := g e.type }

theorem Resembles.of_eq (hfields : v.fields = u.fields) (hbases : v.extensions = u.extensions) :
    Resembles u v := by
  refine ⟨fun ft => ft, fun _ _ => rfl, ?_, ?_⟩
  · rw [hfields]
    exact ((List.map_congr_left fun f _ => f.mapTypes_id).trans (List.map_id _)).symm
  · rw [hbases]
    exact (List.map_id _).symm

theorem Resembles.trans (huv : Resembles u v) (hvr : Resembles v r) : Resembles u r := by
  obtain ⟨g, hg, hfields, hbases⟩ := huv
  obtain ⟨g', hg', hfields', hbases'⟩ := hvr
  refine ⟨g' ∘ g, fun ft hft => ?_, ?_, ?_⟩
  · rw [Function.comp_apply, hg ft hft, hg' ft hft]
  · rw [hfields', hfields, List.map_map]
    exact List.map_congr_left fun f _ => f.mapTypes_mapTypes g g'
  · rw [hbases', hbases, List.map_map]
    rfl

/-- A copy of a type that is nested in one that has been begun. -/
theorem pending_clone (hbegun : t.pending .flattening = []) (hu : Nested u t) (next : Handle) :
    (u.clone next).1.pending .flattening = [] := by
  refine pending_eq_nil_iff.mpr fun v hv => ?_
  obtain ⟨w, hw, hstatus, -⟩ := within_clone hv
  exact hstatus ▸ pending_eq_nil_iff.mp hbegun w (hw.trans hu.within)

theorem Resembles.bases (huv : Resembles u v) (hu : u.Honest s q i) : v.extensions = u.extensions := by
  obtain ⟨g, hg, -, hbases⟩ := huv
  rw [hbases]
  refine (List.map_congr_left fun e he => ?_).trans (List.map_id' _)
  rw [hg e.type (hu.bases e he).forward]

/-- If anything is referred to at the position in the field, it is as `P` says. -/
def RefAt (t : SchemaType) (j k : Nat) (P : FieldType → Prop) : Prop :=
  ∀ f ft, t.fields[j]? = some f → f.types[k]? = some ft → P ft

/-- A dependency is left alone. -/
theorem Resembles.refAt {j k : Nat} (huv : Resembles u v) (hu : u.RefAt j k (· = ft)) (hft : ft.forward = false) :
    v.RefAt j k (· = ft) := by
  obtain ⟨g, hg, hfields, -⟩ := huv
  intro f' ft' hf' hft'
  rw [hfields, List.getElem?_map, Option.map_eq_some_iff] at hf'
  obtain ⟨f, hf, rfl⟩ := hf'
  have htypes : (f.mapTypes g).types = f.types.map g := by
    cases f
    rfl
  rw [htypes, List.getElem?_map, Option.map_eq_some_iff] at hft'
  obtain ⟨ft₀, hft₀, rfl⟩ := hft'
  obtain rfl := hu f ft₀ hf hft₀
  exact hg ft₀ hft

/-- What becomes of a type while the type `active` is worked on. -/
structure Continues (active : Option Handle) (u u' : SchemaType) : Prop where
  id : u'.id = u.id
  pending : u'.pending .flattening ⊆ u.pending .flattening
  follows : some u.id ≠ active → u.pending .flattening = [] → Resembles u u'

namespace Continues

theorem of_eq (hid : v.id = u.id) (hpending : v.pending .flattening ⊆ u.pending .flattening)
    (hfields : v.fields = u.fields) (hbases : v.extensions = u.extensions) : Continues active u v :=
  ⟨hid, hpending, fun _ _ => .of_eq hfields hbases⟩

theorem refl (active : Option Handle) (u : SchemaType) : Continues active u u :=
  .of_eq rfl (List.Subset.refl _) rfl rfl

theorem trans (huv : Continues active u v) (hvr : Continues active v r) : Continues active u r where
  id := hvr.id.trans huv.id
  pending := List.Subset.trans hvr.pending huv.pending
  follows hne hbegun := by
    have hbegun' := List.eq_nil_of_subset_nil (hbegun ▸ huv.pending)
    exact (huv.follows hne hbegun).trans (hvr.follows (huv.id ▸ hne) hbegun')

end Continues

theorem qname_promoted_rewire (g : FieldType → FieldType) :
    (t.promoted (u.rewire g)).qname = t.promotedName u := by
  rw [← promoted_rewire, rewire_eq]
  rfl

end SchemaType

namespace Store

/-- The tree without what is promoted comes in the place of the tree, and what is promoted is a root. -/
theorem Whole.exchanges_promote (hs : s.Whole) (ht : s.Knows t) (hzero : ∀ u, Within u t → u.id ≠ 0) (all : Bool) :
    Exchanges t (t.promote all).1 (t.promote all).2 s
        ((s.update t.id fun _ => (t.promote all).1).insertAll (t.promote all).2) ∧
      ∀ r ∈ (t.promote all).2,
        r ∈ ((s.update t.id fun _ => (t.promote all).1).insertAll (t.promote all).2).types := by
  have hq : (t.promote all).1.qname = t.qname := by
    rw [promote_fst]
    rfl
  have hapart : ∀ r ∈ (t.promote all).2, 0 ∉ r.handles := by
    intro r hr hmem
    have hmem : 0 ∈ t.handles := (t.handles_promote_perm all).subset
      (List.mem_append_right _ (List.mem_flatMap.mpr ⟨r, hr, hmem⟩))
    obtain ⟨u, hu, hid⟩ := SchemaType.mem_handles_iff.mp hmem
    exact hzero u hu hid
  exact hs.exchanges_insertAll (g := fun _ => (t.promote all).1) ht (t.rewired_promote all).id hq
    (t.handles_promote_perm all) hapart

/-- What becomes of a store while the type `active` is worked on. -/
structure Carries (active : Option Handle) (s s' : Store) : Prop where
  roots : s.KeepsRoots s'
  types : ∀ u, s.Knows u → ∃ u', s'.Knows u' ∧ Continues active u u'

namespace Carries

theorem refl (active : Option Handle) (s : Store) : Carries active s s :=
  ⟨.refl s, fun u hu => ⟨u, hu, .refl active u⟩⟩

theorem trans (hc : Carries active s s') (hc' : Carries active s' s'') : Carries active s s'' := by
  refine ⟨hc.roots.trans hc'.roots, fun u hu => ?_⟩
  obtain ⟨u', hu', hcontinues⟩ := hc.types u hu
  obtain ⟨u'', hu'', hcontinues'⟩ := hc'.types u' hu'
  exact ⟨u'', hu'', hcontinues.trans hcontinues'⟩

theorem of_none (hc : Carries none s s') (active : Option Handle) : Carries active s s' := by
  refine ⟨hc.roots, fun u hu => ?_⟩
  obtain ⟨u', hu', hcontinues⟩ := hc.types u hu
  exact ⟨u', hu', hcontinues.id, hcontinues.pending, fun _ => hcontinues.follows (Option.some_ne_none _)⟩

/-- The work on a type that has not been begun counts as that of other types. -/
theorem finish (hc : Carries (some t.id) s s') (hs : s.Whole) (ht : s.Knows t)
    (hpending : t.pending .flattening ≠ []) : Carries none s s' := by
  refine ⟨hc.roots, fun u hu => ?_⟩
  obtain ⟨u', hu', hcontinues⟩ := hc.types u hu
  refine ⟨u', hu', hcontinues.id, hcontinues.pending, fun _ hbegun => ?_⟩
  refine hcontinues.follows (fun heq => ?_) hbegun
  obtain rfl := hu.eq_of_id hs ht (Option.some.inj heq)
  exact hpending hbegun

end Carries

/-- What holds of a store while types are flattened, of dependencies on a name. -/
structure Promoting (q : QName) (i : Handle) (s : Store) : Prop where
  whole : s.Whole
  indexed : s.Indexed
  wrapped : s.config.output.wrappedLists ≠ .unwrap
  positive : 0 < s.nextHandle
  below : i < s.nextHandle
  honest : ∀ u, s.Knows u → u.Honest s q i
  substitutes : ∀ p ∈ s.memory.substitutes, p.2.Throughout (FieldType.Honours s q i)

namespace Promoting

theorem lookup? (hs : s.Promoting q i) {q' : QName} {p : SchemaType → Bool}
    (ht : s.lookup? q' p = some t) : t ∈ s.types ∧ t.qname = q' := by
  have hkeys : (s.roots.map (·.key)).Nodup := by
    have h := hs.whole.keys
    rw [entries, List.map_append] at h
    exact (List.nodup_append.mp h).1
  rw [hs.indexed.lookup?_eq hkeys] at ht
  have hp := List.find?_some ht
  rw [Bool.and_eq_true, beq_iff_eq] at hp
  exact ⟨List.mem_of_find?_eq_some ht, hp.1⟩

theorem get? (hs : s.Promoting q i) (ht : s.Knows t) : s.get? t.id = some t :=
  (get?_eq_some_iff hs.whole).mpr ⟨ht, rfl⟩

theorem quiet (hs : s.Promoting q i) (memory : Memory) (journal : List Event)
    (hmemory : ∀ p ∈ memory.substitutes, p.2.Throughout (FieldType.Honours s q i)) :
    { s with memory, journal }.Promoting q i :=
  ⟨⟨hs.whole.keys, hs.whole.keysBelow, hs.whole.handles⟩, hs.indexed, hs.wrapped, hs.positive, hs.below,
    fun u hu => (hs.honest u hu).mono fun r hr => ⟨r, hr, rfl, rfl⟩, fun p hp =>
    Field.throughout_mono (hmemory p hp) fun _ hft => hft.mono fun r hr => ⟨r, hr, rfl, rfl⟩⟩

-- ---------------------------------------------------------------------------
-- What the work on a type does to the store
-- ---------------------------------------------------------------------------

/-- A type is exchanged for one that carries it on. -/
theorem exchange (hs : s.Promoting q i) (ht : s.Knows t) (hex : Exchanges t t' apart s s')
    (hnew : ∀ r ∈ t' :: apart, ∀ v, Within v r → v.Honest s' q i)
    (hold : ∀ u, Within u t → ∃ r ∈ t' :: apart, ∃ v, Within v r ∧ Continues active u v) :
    s'.Promoting q i ∧ Carries active s s' ∧ s'.Knows t' := by
  have hroots : s.KeepsRoots s' := fun r hr => hex.exists_root hs.whole ht hr
  have hpending : t'.pending .flattening ⊆ t.pending .flattening := by
    obtain ⟨r, hr, v, hv, hcontinues⟩ := hold t .self
    have heq := (hex.knows_inside hs.whole ht hr hv).eq_of_id hex.whole
      (hex.knows_inside hs.whole ht List.mem_cons_self .self) (hcontinues.id.trans hex.id.symm)
    exact heq ▸ hcontinues.pending
  have houtside : ∀ u, s.Knows u → u.id ∉ t.handles →
      Continues active u (u.updateAt t.id fun _ => t') := by
    intro u hu hout
    have hsub := ht.pending_updateAt_subset hs.whole hu hpending
    obtain ⟨inner, heq⟩ : ∃ inner, (u.updateAt t.id fun _ => t') = u.withInner inner :=
      exists_updateAt_eq_withInner hout
    rw [heq] at hsub ⊢
    exact .of_eq rfl hsub rfl rfl
  refine ⟨?_, ⟨hroots, fun u hu => ?_⟩, hex.knows_inside hs.whole ht List.mem_cons_self .self⟩
  · constructor
    case whole => exact hex.whole
    case indexed => exact hex.indexed hs.indexed
    case wrapped => exact hex.config ▸ hs.wrapped
    case positive => exact Int.lt_of_lt_of_le hs.positive hex.next
    case below => exact Int.lt_of_lt_of_le hs.below hex.next
    case honest =>
      intro v hv
      obtain ⟨u, hu, hout, rfl⟩ | ⟨r, hr, hv⟩ := hex.cases_knows hs.whole ht hv
      · have hhonest := (hs.honest u hu).mono hroots
        have hsub := (houtside u hu hout).pending
        obtain ⟨inner, heq⟩ : ∃ inner, (u.updateAt t.id fun _ => t') = u.withInner inner :=
          exists_updateAt_eq_withInner hout
        rw [heq] at hsub ⊢
        refine ⟨hhonest.handle, fun hbegun => ?_, hhonest.fields, hhonest.bases, hhonest.heads⟩
        exact List.eq_nil_of_subset_nil (hhonest.begun hbegun ▸ hsub)
      · exact hnew r hr v hv
    case substitutes =>
      intro p hp
      rw [hex.memory] at hp
      exact Field.throughout_mono (hs.substitutes p hp) fun _ hft => hft.mono hroots
  · by_cases hmem : u.id ∈ t.handles
    · obtain ⟨w, hw, hid⟩ := SchemaType.mem_handles_iff.mp hmem
      obtain rfl := (ht.within hw).eq_of_id hs.whole hu hid
      obtain ⟨r, hr, v, hv, hcontinues⟩ := hold w hw
      exact ⟨v, hex.knows_inside hs.whole ht hr hv, hcontinues⟩
    · exact ⟨_, hex.knows_outside hs.whole ht hu hmem, houtside u hu hmem⟩

/-- A change of the type that is worked on, which may take in types. -/
theorem update (g : SchemaType → SchemaType) (next : Handle) (extra : List SchemaType) (hs : s.Promoting q i)
    (ht : s.Knows t) (hid : (g t).id = t.id)
    (hq : (g t).qname = t.qname) (hinner : (g t).inner = t.inner ++ extra)
    (hextra : Numbered (extra.flatMap SchemaType.handles) s.nextHandle next)
    (hown : (g t).Honest s q i) (hpending : (g t).pending .flattening ⊆ t.pending .flattening)
    (hcopies : ∀ x ∈ extra, ∀ v, Within v x → v.Honest s q i) :
    ({ s with nextHandle := next }.update t.id g).Promoting q i ∧
      Carries (some t.id) s ({ s with nextHandle := next }.update t.id g) ∧
      ({ s with nextHandle := next }.update t.id g).Knows (g t) := by
  have hex := hs.whole.exchanges_update ht hid hq hinner hextra
  have hroots : s.KeepsRoots ({ s with nextHandle := next }.update t.id g) :=
    fun r hr => hex.exists_root hs.whole ht hr
  refine hs.exchange ht hex (fun r hr v hv => ?_) fun u hu => ⟨g t, List.mem_cons_self, ?_⟩
  · obtain rfl := List.mem_singleton.mp hr
    cases hv with
    | self => exact hown.mono hroots
    | inner hc hv =>
      rw [hinner] at hc
      obtain hc | hc := List.mem_append.mp hc
      · exact (hs.honest v (ht.within (.inner hc hv))).mono hroots
      · exact (hcopies _ hc v hv).mono hroots
  · cases hu with
    | self => exact ⟨g t, .self, hid, hpending, fun hne => absurd rfl hne⟩
    | inner hc hu => exact ⟨u, .inner (hinner ▸ List.mem_append_left _ hc) hu, .refl _ u⟩

/-- A change of the type that is worked on, which may take out inner types. -/
theorem setAside {g : SchemaType → SchemaType} (hs : s.Promoting q i) (ht : s.Knows t)
    (p : SchemaType → Bool) (hid : (g t).id = t.id) (hq : (g t).qname = t.qname)
    (hinner : (g t).inner = t.inner.filter p) (hown : (g t).Honest s q i)
    (hpending : (g t).pending .flattening ⊆ t.pending .flattening) :
    ((s.update t.id g).setAside (t.inner.filter (!p ·))).Promoting q i ∧
      Carries (some t.id) s ((s.update t.id g).setAside (t.inner.filter (!p ·))) ∧
      ((s.update t.id g).setAside (t.inner.filter (!p ·))).Knows (g t) := by
  have hperm : ((g t).handles ++ (t.inner.filter (!p ·)).flatMap SchemaType.handles).Perm t.handles := by
    rw [handles_eq, handles_eq t, hid, hinner, List.cons_append, ← List.flatMap_append]
    exact .cons _ ((List.filter_append_perm p t.inner).flatMap_right _)
  have hex := hs.whole.exchanges_setAside ht hid hq hperm
  have hroots : s.KeepsRoots ((s.update t.id g).setAside (t.inner.filter (!p ·))) :=
    fun r hr => hex.exists_root hs.whole ht hr
  have hold : ∀ {c v}, c ∈ t.inner → Within v c → v.Honest s q i :=
    fun hc hv => hs.honest _ (ht.within (.inner hc hv))
  refine hs.exchange ht hex (fun r hr v hv => ?_) fun u hu => ?_
  · obtain rfl | hr := List.mem_cons.mp hr
    · cases hv with
      | self => exact hown.mono hroots
      | inner hc hv => exact (hold (List.mem_of_mem_filter (hinner ▸ hc)) hv).mono hroots
    · exact (hold (List.mem_of_mem_filter hr) hv).mono hroots
  · cases hu with
    | self => exact ⟨g t, List.mem_cons_self, _, .self, hid, hpending, fun hne => absurd rfl hne⟩
    | @inner _ c hc hu =>
      cases hp : p c with
      | true =>
        have hmem : c ∈ (g t).inner := hinner ▸ List.mem_filter.mpr ⟨hc, hp⟩
        exact ⟨g t, List.mem_cons_self, u, .inner hmem hu, .refl _ u⟩
      | false =>
        have hmem : c ∈ t.inner.filter (!p ·) := List.mem_filter.mpr ⟨hc, by rw [hp]; rfl⟩
        exact ⟨c, List.mem_cons_of_mem _ hmem, u, hu, .refl _ u⟩

/-- Inner types become roots, and references forward to them follow. -/
theorem promote (hs : s.Promoting q i) (ht : s.Knows t) (all : Bool) :
    ((s.update t.id fun _ => (t.promote all).1).insertAll (t.promote all).2).Promoting q i ∧
      Carries (some t.id) s ((s.update t.id fun _ => (t.promote all).1).insertAll (t.promote all).2) ∧
      ((s.update t.id fun _ => (t.promote all).1).insertAll (t.promote all).2).Knows (t.promote all).1 := by
  obtain ⟨hex, hnew⟩ := hs.whole.exchanges_promote ht (fun u hu => (hs.honest u (ht.within hu)).handle) all
  have hroots : s.KeepsRoots ((s.update t.id fun _ => (t.promote all).1).insertAll (t.promote all).2) :=
    fun r hr => hex.exists_root hs.whole ht hr
  have hdivert : ∀ ft : FieldType, ft.Honours s q i → FieldType.Honours
      ((s.update t.id fun _ => (t.promote all).1).insertAll (t.promote all).2) q i (t.divert all ft) := by
    intro ft hft
    obtain hsame | ⟨c, hc, hall, -, hbound⟩ := t.divert_cases all ft
    · rw [hsame]
      exact hft.mono hroots
    · rw [hbound]
      exact .of_root (hnew _ (mem_promote_iff.mpr ⟨c, hc, hall, rfl⟩)) (qname_promoted_rewire _)
        (rewired_promoted t c).id.symm
  refine hs.exchange ht hex (fun r hr v hv => ?_) fun u hu => ?_
  · obtain ⟨u, hu, hv⟩ := exists_of_within_promote hr hv
    have hhonest := hs.honest u (ht.within hu)
    constructor
    case handle => exact hv.id ▸ hhonest.handle
    case begun =>
      intro hbegun
      exact List.eq_nil_of_subset_nil (hhonest.begun (hv.status ▸ hbegun) ▸ hv.pending _)
    case fields =>
      rw [hv.fields]
      exact Field.throughout_mapTypes hhonest.fields hdivert
    case bases =>
      intro e he
      rw [hv.extensions] at he
      obtain ⟨a, ha, rfl⟩ := List.mem_map.mp he
      have hbase := hhonest.bases a ha
      have hsame : t.divert all a.type = a.type := followAll_of_dependency hbase.forward _
      refine ⟨?_, hdivert a.type hbase.type⟩
      dsimp only
      rw [hsame]
      exact hbase.forward
    case heads => exact fun hid => hv.substitutions.trans (hhonest.heads (hv.id.symm.trans hid))
  · obtain ⟨r, hr, v, hv, hrew⟩ := exists_within_promote all hu
    refine ⟨r, hr, v, hv, hrew.id, hrew.pending _, fun _ _ => ⟨t.divert all, fun ft hft => ?_, ?_⟩⟩
    · exact followAll_of_dependency hft _
    · exact ⟨hrew.fields, hrew.extensions⟩

/-- What a copy of a nested type holds is as honest as the nested type. -/
theorem honest_of_within_clone (hs : s.Promoting q i) (ht : s.Knows t) (hbegun : t.pending .flattening = [])
    (hu : Nested u t) (hv : Within v (u.clone s.nextHandle).1) : v.Honest s q i := by
  have hbelow : v.id ∈ (u.clone s.nextHandle).1.handles := SchemaType.mem_handles_iff.mpr ⟨v, hv, rfl⟩
  have hfresh := ((numbered_clone u s.nextHandle).bounds v.id hbelow).1
  have hpending := pending_clone hbegun hu s.nextHandle
  obtain ⟨w, hw, move, hmove, -, hfields, hbases, -⟩ := exists_of_within_clone hv
  have hhonest := hs.honest w (ht.within (hw.trans hu.within))
  -- neither roots nor what is unbound is in the copied tree
  have hzero : move 0 = 0 := by
    refine hmove 0 fun hmem => ?_
    obtain ⟨x, hx, hid⟩ := SchemaType.mem_handles_iff.mp hmem
    exact (hs.honest x (ht.within (hx.trans hu.within))).handle hid
  have hroots : ∀ r ∈ s.types, move r.id = r.id := by
    intro r hr
    refine hmove r.id fun hmem => ?_
    obtain ⟨x, hx, hid⟩ := SchemaType.mem_handles_iff.mp hmem
    have hknown := (holds_of_mem_types hr).knows
    obtain rfl := hknown.eq_of_id hs.whole (ht.within (hx.trans hu.within)) hid.symm
    obtain ⟨c, hc, hu⟩ := hu
    have hstock : r ∈ s.stock := by
      rw [stock, entries, List.map_append]
      exact List.mem_append_left _ hr
    exact hs.whole.not_nested hstock ht ⟨c, hc, hx.trans hu⟩
  constructor
  case handle => exact Int.ne_of_gt (Int.lt_of_lt_of_le hs.positive hfresh)
  case begun => exact fun _ => pending_eq_nil_iff.mpr fun x hx => pending_eq_nil_iff.mp hpending x (hx.trans hv)
  case fields =>
    rw [hfields]
    exact Field.throughout_mapTypes hhonest.fields fun _ hft => hft.move hzero hroots
  case bases =>
    intro e he
    rw [hbases] at he
    obtain ⟨a, ha, rfl⟩ := List.mem_map.mp he
    exact ⟨(hhonest.bases a ha).forward, (hhonest.bases a ha).type.move hzero hroots⟩
  case heads => exact fun hid => absurd (hid ▸ hfresh) (Int.not_le.mpr hs.below)

end Promoting

end Store

-- ---------------------------------------------------------------------------
-- What is kept up
-- ---------------------------------------------------------------------------

/-- The type with the handle has been begun, and so has all that is nested in it. -/
def Store.Started (s : Store) (h : Handle) : Prop :=
  ∃ t, s.Knows t ∧ t.id = h ∧ t.pending .flattening = []

theorem Store.Started.carries (hh : s.Started h) (hc : Store.Carries active s s') : s'.Started h := by
  obtain ⟨t, ht, hid, hbegun⟩ := hh
  obtain ⟨t', ht', hcontinues⟩ := hc.types t ht
  exact ⟨t', ht', hcontinues.id.trans hid, List.eq_nil_of_subset_nil (hbegun ▸ hcontinues.pending)⟩

theorem Store.Promoting.quietly (hs : s.Promoting q i) {memory : Memory} (journal : List Event)
    (hmemory : memory.substitutes ⊆ s.memory.substitutes) (active : Option Handle) :
    { s with memory, journal }.Promoting q i ∧ Store.Carries active s { s with memory, journal } := by
  refine ⟨hs.quiet memory journal fun p hp => hs.substitutes p (hmemory hp), ?_⟩
  exact ⟨fun r hr => ⟨r, hr, rfl, rfl⟩, fun u hu => ⟨u, hu, .refl _ u⟩⟩

namespace Upkeep

/-- What is kept up between types. -/
def promoting (q : QName) (i : Handle) : Upkeep where
  Inv := Store.Promoting q i
  Leads := Store.Carries none
  Fit _ _ := True
  Seek _ _ := True
  Rest _ := True
  refl := .refl none
  trans := .trans
  stays _ _ := trivial
  sought _ _ := trivial
  rests _ _ := trivial
  nested _ _ _ _ := trivial
  found _ _ _ := trivial
  swept _ _ _ _ _ _ := trivial
  quiet _ journal hmemory hs := hs.quietly journal hmemory none

/-- What is kept up while the type with the handle is worked on. -/
def promotingAt (q : QName) (i h : Handle) : Upkeep where
  Inv s := s.Promoting q i ∧ s.Started h
  Leads := Store.Carries (some h)
  Fit _ _ := True
  Seek _ _ := True
  Rest _ := True
  refl := .refl (some h)
  trans := .trans
  stays _ _ := trivial
  sought _ _ := trivial
  rests _ _ := trivial
  nested _ _ _ _ := trivial
  found _ _ _ := trivial
  swept _ _ _ _ _ _ := trivial
  quiet memory journal hmemory hs := by
    obtain ⟨hquiet, hcarries⟩ := hs.1.quietly journal hmemory (some h)
    exact ⟨⟨hquiet, hs.2.carries hcarries⟩, hcarries⟩

theorem shrinks_promoting (q : QName) (i : Handle) : (promoting q i).Shrinks .flattening where
  whole hs := Store.Promoting.whole hs
  types hc u hu := by
    obtain ⟨u', hu', hcontinues⟩ := Store.Carries.types hc u hu
    exact ⟨u', hu', hcontinues.id, hcontinues.pending⟩

end Upkeep

end Schemata
