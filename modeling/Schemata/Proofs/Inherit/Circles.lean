import Schemata.Proofs.Inherit.Leads
import Schemata.Proofs.Inherit.Names

/-!
# Circles of bases

A base is kept only when it does not lead back to the type, and later on bases lead to fewer types than
before. So it is enough to look at one base of a circle: the others would have been seen when it was
checked, and no type that is done is on a circle of bound bases. What may be on one is a copy of a
nested type that was made while this was worked on, because nothing works on the copy again.
-/

namespace Schemata

open Compile SchemaType Relation

variable {given : Prop} {s s₁ s' : Store} {t t₁ u v : SchemaType} {h source next : Handle}
  {g : SchemaType → SchemaType} {extra : List SchemaType} {e : Extension}
  {es bes pre post : List Extension} {bfs : List Field} {n rounds : Nat}
  {process : Handle → Compile Unit}

namespace Store

/-- A base of the first type, other than a native one, is bound to the second. -/
def InheritsFrom (s : Store) (t b : SchemaType) : Prop :=
  s.Holds t ∧ s.Holds b ∧ ∃ e ∈ t.extensions, e.type.native = false ∧ e.type.reference = b.id

/-- The handle is not the one of a nested type, and is not given to a new type. -/
def RootOnly (s : Store) (h : Handle) : Prop :=
  h < s.nextHandle ∧ ∀ u, s.Holds u → u.id = h → u ∈ s.types

/-- The base is bound to the root that its name stands for, and does not lead to the type. -/
structure Upward (s : Store) (h : Handle) (e : Extension) : Prop where
  native : e.type.native = false
  target : s.Target e.type.qname e.type.reference
  straight : ¬ s.Leads e.type.qname h

theorem Upward.shrinks (hup : s.Upward h e) (hs : s.Sound) (hs' : s'.Sound) (hshrinks : Shrinks s s') :
    s'.Upward h e where
  native := hup.native
  target := (hshrinks.target_iff hs hs').mpr hup.target
  straight hlead := hup.straight (hshrinks.leads hs hs' hlead)

/-- What is nested is no root. -/
theorem not_mem_types_of_nested (hs : s.handles.Nodup) (ht : s.Holds t) {c : SchemaType}
    (hc : c ∈ t.inner) (hv : Within v c) : v ∉ s.types := by
  intro hroot
  obtain ⟨r, hr, hin⟩ := ht
  have hwithin : Within v r := hv.trans ((Within.inner hc .self).trans hin)
  obtain rfl := eq_of_mem_handles hs hroot hr (SchemaType.mem_handles_iff.mpr ⟨v, .self, rfl⟩)
    (SchemaType.mem_handles_iff.mpr ⟨v, hwithin, rfl⟩)
  -- the type would be nested in itself
  have hnodup := hin.nodup_handles (nodup_handles_of_mem hs hr)
  exact not_mem_handles_inner hnodup hc (SchemaType.mem_handles_iff.mpr ⟨t, hin.trans hv, rfl⟩)

theorem Change.rootOnly {busy : Status} (hc : s.Change busy g extra next) (hs : s.Sound)
    (hh : s.RootOnly h) (k : Handle) : RootOnly ({ s with nextHandle := next }.update k g) h := by
  refine ⟨Int.lt_of_lt_of_le hh.1 hc.numbered.le, fun v hv hid => ?_⟩
  obtain ⟨u, hu, rfl⟩ | ⟨x, hx, hv⟩ := holds_of_update hc.keeps hs.handles hv
  · rw [types_update]
    exact List.mem_map_of_mem (hh.2 u hu ((hc.keeps.widens.updateAt_id u).symm.trans hid))
  · have hmem : v.id ∈ extra.flatMap SchemaType.handles :=
      List.mem_flatMap.mpr ⟨x, hx, SchemaType.mem_handles_iff.mpr ⟨v, hv, rfl⟩⟩
    exact absurd (hid ▸ hh.1) (Int.not_lt.mpr (hc.numbered.bounds _ hmem).1)

/-- What holds of a store while its bases are settled. Circles have been looked for in `s₁`, from which
on bases lead to no more types; `given` is what is known about the bindings from the start. -/
structure Unwinding (given : Prop) (s₁ s : Store) : Prop where
  sound : s.Sound
  closed : s.Closed .flattening
  outline : s.roots.map Entry.outline = s₁.roots.map Entry.outline
  status : ∀ u, s.Holds u → u.status = .raw ∨ u.status = .flattening ∨ u.status = .flattened
  upward : ∀ u, s.Holds u → u.status = .flattened → ∀ e ∈ u.extensions, s₁.Upward u.id e
  rooted : given → ∀ u, s.Holds u → ∀ e ∈ u.extensions, e.type.native = false →
    s.RootOnly e.type.reference

namespace Unwinding

theorem start (hs : s.Sound) (hraw : ∀ u, s.Holds u → u.status = .raw) :
    Unwinding (∀ u, s.Holds u → ∀ e ∈ u.extensions, e.type.native = false →
      s.RootOnly e.type.reference) s s where
  sound := hs
  closed u hu hbegun := by
    rw [hraw u hu] at hbegun
    exact absurd (by decide) hbegun
  outline := rfl
  status u hu := .inl (hraw u hu)
  upward u hu hdone := by
    rw [hraw u hu] at hdone
    cases hdone
  rooted hgiven := hgiven

theorem raw (hs : Unwinding given s₁ s) (hu : s.Holds u) (hlt : u.status < .flattening) :
    u.status = .raw := by
  obtain hraw | hbusy | hdone := hs.status u hu
  · exact hraw
  · rw [hbusy] at hlt
    exact absurd hlt (by decide)
  · rw [hdone] at hlt
    exact absurd hlt (by decide)

/-- When bases lead to fewer types than in `s₁`, circles may as well be looked for in the store itself. -/
theorem rebase (hs : Unwinding given s₁ s) (hs₁ : s₁.Sound) (hshrinks : Shrinks s₁ s) :
    Unwinding given s s :=
  { hs with
    outline := rfl
    upward := fun u hu hdone e he => (hs.upward u hu hdone e he).shrinks hs₁ hs.sound hshrinks }

/-- A change of a type, which may add copies. -/
theorem change (hs : Unwinding given s₁ s) (hc : s.Change .flattening g extra next) (ht : s.Holds t)
    (hinner : t.inner.flatMap (SchemaType.pending .flattening) = [])
    (hbegun : (g t).status = .flattening ∨
      (g t).status = .flattened ∧ ∀ e ∈ (g t).extensions, s₁.Upward t.id e)
    (hrooted : given → ∀ e ∈ (g t).extensions, e.type.native = false → s.RootOnly e.type.reference)
    (hextra : ∀ x ∈ extra, ∀ v, Within v x →
      (v.status = .raw ∨ v.status = .flattening ∨ v.status = .flattened) ∧
      (v.status = .flattened → ∀ e ∈ v.extensions, s₁.Upward v.id e) ∧
      (given → ∀ e ∈ v.extensions, e.type.native = false → s.RootOnly e.type.reference)) :
    Unwinding given s₁ ({ s with nextHandle := next }.update t.id g) where
  sound := hc.sound hs.sound ht
  closed := hc.closed hs.sound hs.closed ht hinner
  outline := (outline_update hc.keeps _ t.id).trans hs.outline
  status := by
    refine hc.forall_holds hs.sound ht (fun _ _ hu => hu) (fun u hu _ => hs.status u hu) ?_
      fun x hx v hv => (hextra x hx v hv).1
    exact .inr (hbegun.imp_right And.left)
  upward := by
    refine hc.forall_holds hs.sound ht (fun _ _ hu => hu) (fun u hu _ => hs.upward u hu) ?_
      fun x hx v hv => (hextra x hx v hv).2.1
    intro hdone
    obtain hbusy | ⟨-, hup⟩ := hbegun
    · rw [hbusy] at hdone
      cases hdone
    · rwa [hc.keeps.id]
  rooted hgiven := by
    refine hc.forall_holds hs.sound ht (fun _ _ hu => hu) (fun u hu _ e he hnative => ?_)
      (fun e he hnative => ?_) fun x hx v hv e he hnative => ?_
    · exact hc.rootOnly hs.sound (hs.rooted hgiven u hu e he hnative) t.id
    · exact hc.rootOnly hs.sound (hrooted hgiven e he hnative) t.id
    · exact hc.rootOnly hs.sound ((hextra x hx v hv).2.2 hgiven e he hnative) t.id

/-- The bases of a copy of a nested type: roots are none of what is copied, so that references to them
stay, and no base leads to a type that is new. -/
theorem copy (hs : Unwinding given s₁ s) (hs₁ : s₁.Sound) {src c : SchemaType} (hsrc : s.Holds src)
    (hc : c ∈ src.inner) (hv : Within v c) {w : SchemaType} (hw : Within w (v.clone s.nextHandle).1) :
    (w.status = .raw ∨ w.status = .flattening ∨ w.status = .flattened) ∧
    (w.status = .flattened → ∀ e ∈ w.extensions, s₁.Upward w.id e) ∧
    (given → ∀ e ∈ w.extensions, e.type.native = false → s.RootOnly e.type.reference) := by
  obtain ⟨u, hu, hstatus, hbases⟩ := extensions_of_within_clone hw
  have hheld : ∀ {x}, Within x v → s.Holds x := fun hx => hsrc.within (.inner hc (hx.trans hv))
  have hroot : ∀ {r k}, r ∈ s.types → r.id = k → k ∉ v.handles := by
    rintro r k hr rfl hmem
    obtain ⟨x, hx, hid⟩ := SchemaType.mem_handles_iff.mp hmem
    obtain rfl := (hheld hx).eq_of_id hs.sound.handles (holds_of_mem_types hr) hid
    exact not_mem_types_of_nested hs.sound.handles hsrc hc (hx.trans hv) hr
  refine ⟨hstatus ▸ hs.status u (hheld hu), fun hdone e he => ?_, fun hgiven e he hnative => ?_⟩
  · obtain ⟨a, ha, hname, hnative, href⟩ := hbases e he
    have hup := hs.upward u (hheld hu) (hstatus ▸ hdone) a ha
    obtain ⟨r₁, hr₁, -, hid₁, -⟩ := hs₁.exists_of_target hup.target
    obtain ⟨r, hr, hid, -⟩ := exists_of_outline hs.outline.symm hr₁
    refine ⟨hnative.trans hup.native, ?_, fun hlead => ?_⟩
    · rw [hname, href (hroot hr (hid.trans hid₁))]
      exact hup.target
    · obtain ⟨x₁, hx₁, hidx₁⟩ := hs₁.exists_of_leads hlead
      obtain ⟨x, hx, hidx, -⟩ := exists_of_outline hs.outline.symm hx₁
      have hold := hs.sound.below x.id (mem_handles_iff.mpr ⟨x, holds_of_mem_types hx, rfl⟩)
      have hnew := (numbered_clone v s.nextHandle).bounds w.id
        (SchemaType.mem_handles_iff.mpr ⟨w, hw, rfl⟩)
      rw [hidx, hidx₁] at hold
      exact absurd hold (Int.not_lt.mpr hnew.1)
  · obtain ⟨a, ha, -, hnative', href⟩ := hbases e he
    have hold := hs.rooted hgiven u (hheld hu) a ha (hnative' ▸ hnative)
    rwa [href fun hmem => ?_]
    obtain ⟨x, hx, hid⟩ := SchemaType.mem_handles_iff.mp hmem
    exact hroot (hold.2 x (hheld hx) hid) hid hmem

end Unwinding

theorem Shrinks.quiet (s : Store) (memory : Memory) (journal : List Event) :
    Shrinks s { s with memory, journal } :=
  ⟨rfl, fun _ _ hnext => .single hnext, Finset.Subset.refl _⟩

theorem Shrinks.setStatus (hs : s.Sound) (ht : s.Holds t) {st : Status} (hst : ¬ st < .flattening) :
    Shrinks s (s.update t.id fun t => { t with status := st }) := by
  have hchange := Change.setStatus s hst
  have houtline := outline_update hchange.keeps s t.id
  have hsame : ∀ r ∈ (s.update t.id fun t => { t with status := st }).types,
      ∃ r₀ ∈ s.types, r₀.id = r.id ∧ r₀.extensions = r.extensions := by
    intro r hr
    rw [types_update] at hr
    obtain ⟨r₀, hr₀, rfl⟩ := List.mem_map.mp hr
    refine ⟨r₀, hr₀, (hchange.keeps.widens.updateAt_id r₀).symm, ?_⟩
    by_cases hid : r₀.id = t.id
    · rw [updateAt_of_eq hid]
    · rw [updateAt_of_ne hid]
      rfl
  refine ⟨houtline, ?_, fun q hq => ?_⟩
  · rintro _ k ⟨r, hr, rfl, e, he, hnative, htarget⟩
    obtain ⟨r₀, hr₀, hid, hbases⟩ := hsame r hr
    rw [Target, hs.preferred?_id (hchange.sound hs ht) houtline] at htarget
    exact .single ⟨r₀, hr₀, hid, e, hbases ▸ he, hnative, htarget⟩
  · obtain ⟨r, hr, e, he, rfl⟩ := mem_baseNames_iff.mp hq
    obtain ⟨r₀, hr₀, -, hbases⟩ := hsame r hr
    exact mem_baseNames_iff.mpr ⟨r₀, hr₀, e, hbases ▸ he, rfl⟩

end Store

open Store

/-- The discipline of settling bases, while it works on the type `active`. -/
def unwinding (given : Prop) (active : Option Handle) : Discipline where
  busy := .flattening
  Inv s := s.Unwinding given s
  Leads s s' := Progress .flattening .flattened active s s' ∧ Shrinks s s'
  Allowed _ := True
  sound hs := hs.sound
  closed hs := hs.closed
  refl s := ⟨.refl active s, .refl s⟩
  trans h h' := ⟨h.1.trans (by decide) h'.1, h.2.trans h'.2⟩
  grows hleads := hleads.1.grows
  quiet {s} memory journal _ hs := by
    have hsound : Sound { s with memory, journal } :=
      ⟨hs.sound.keys, hs.sound.handles, hs.sound.below, hs.sound.byName, hs.sound.byHandle⟩
    have hquiet : Unwinding given s { s with memory, journal } :=
      ⟨hsound, hs.closed, rfl, hs.status, hs.upward, hs.rooted⟩
    exact ⟨hquiet.rebase hs.sound (.quiet s memory journal),
      ⟨rfl, (Progress.refl active s).types⟩, .quiet s memory journal⟩

/-- The discipline of dealing with one base of a type, from the store `s₁` on. Meanwhile no other type
is worked on; a base that is copied is off the type before its bases are on it. -/
def dissolving (given : Prop) (s₁ : Store) (h : Handle) : Discipline where
  busy := .flattening
  Inv s := s₁.Unwinding given s
  Leads := Progress .flattening .flattened (some h)
  Allowed _ := True
  sound hs := hs.sound
  closed hs := hs.closed
  refl := .refl (some h)
  trans := .trans (by decide)
  grows hleads := hleads.grows
  quiet {s} _ _ _ hs :=
    ⟨⟨⟨hs.sound.keys, hs.sound.handles, hs.sound.below, hs.sound.byName, hs.sound.byHandle⟩,
      hs.closed, hs.outline, hs.status, hs.upward, hs.rooted⟩, rfl, (Progress.refl (some h) s).types⟩

-- ---------------------------------------------------------------------------
-- Dealing with one base
-- ---------------------------------------------------------------------------

/-- The type is worked on and has these bases; the other roots have those that they have had in `s₁`. -/
structure Rebasing (s₁ : Store) (h : Handle) (es : List Extension) (s : Store) : Prop where
  self : ∃ t, s.Holds t ∧ t.id = h ∧ t.status = .flattening ∧ t.extensions = es
  others : ∀ t ∈ s.types, t.id ≠ h → ∃ t₁ ∈ s₁.types, t₁.id = t.id ∧ t₁.extensions = t.extensions

/-- The type may come to have the base: it has one of this name, or its base has it. -/
def Store.Passes (s : Store) (t : SchemaType) (e : Extension) : Prop :=
  (∃ a ∈ t.extensions, a.type.qname = e.type.qname ∧ a.type.native = e.type.native) ∨
    ∃ b ∈ s.types, (∃ a ∈ t.extensions, a.type.native = false ∧ s.Target a.type.qname b.id) ∧
      ∃ c ∈ b.extensions, c.type = e.type

theorem passes_of_mem (he : e ∈ t.extensions) : s.Passes t e :=
  .inl ⟨e, he, rfl, rfl⟩

namespace Rebasing

theorem start (ht : s.Holds t) (hid : t.id = h) (hbusy : t.status = .flattening) :
    Rebasing s h t.extensions s :=
  ⟨⟨t, ht, hid, hbusy, rfl⟩, fun t ht _ => ⟨t, ht, rfl, rfl⟩⟩

theorem typeOf_bind {α : Type} {D : Discipline} {f : SchemaType → Compile α} {Q : α → Store → Prop}
    (hw : Rebasing s₁ h es s) (hs : D.Inv s) (hf : ∀ t, t.extensions = es → D.conduct.Runs (f t) s Q) :
    D.conduct.Runs (typeOf h >>= f) s Q := by
  obtain ⟨t, ht, rfl, -, hbases⟩ := hw.self
  exact Discipline.typeOf_bind hs ht (hf t hbases)

/-- A change of the type that is worked on. -/
theorem change (hw : Rebasing s₁ h es s) (hs : s.Sound) (hc : s.Change .flattening g extra next)
    (hstatus : ∀ t, (g t).status = t.status) : ∃ t, t.extensions = es ∧
      Rebasing s₁ h (g t).extensions ({ s with nextHandle := next }.update h g) := by
  obtain ⟨t, ht, rfl, hbusy, hbases⟩ := hw.self
  refine ⟨t, hbases, ⟨g t, hc.holds hs ht, hc.keeps.id t, (hstatus t).trans hbusy, rfl⟩, ?_⟩
  intro r hr hne
  rw [types_update] at hr
  obtain ⟨r₀, hr₀, rfl⟩ := List.mem_map.mp hr
  have hne₀ : r₀.id ≠ t.id := fun heq => hne ((hc.keeps.widens.updateAt_id r₀).trans heq)
  rw [updateAt_of_ne hne₀]
  exact hw.others r₀ hr₀ hne₀

/-- With the bases that it may come to have, the type leads nowhere that it has not led. -/
theorem shrinks (hw : Rebasing s₁ h es s) (hs₁ : s₁.Sound) (hs : s.Sound)
    (houtline : s.roots.map Entry.outline = s₁.roots.map Entry.outline) (ht₁ : s₁.Holds t₁)
    (hid₁ : t₁.id = h) (hes : ∀ e ∈ es, s₁.Passes t₁ e) : Shrinks s₁ s := by
  obtain ⟨t, ht, hid, -, rfl⟩ := hw.self
  -- the type that is worked on may be a root
  have hself : ∀ {r}, r ∈ s.types → r.id = h → r = t ∧ t₁ ∈ s₁.types := by
    intro r hr hrid
    obtain ⟨r₁, hr₁, hidr, -⟩ := exists_of_outline houtline hr
    obtain rfl := (holds_of_mem_types hr₁).eq_of_id hs₁.handles ht₁ (hidr.trans (hrid.trans hid₁.symm))
    exact ⟨(holds_of_mem_types hr).eq_of_id hs.handles ht (hrid.trans hid.symm), hr₁⟩
  refine ⟨houtline, ?_, fun q hq => ?_⟩
  · rintro _ k ⟨r, hr, rfl, e, he, hnative, htarget⟩
    rw [Target, hs₁.preferred?_id hs houtline] at htarget
    by_cases hrid : r.id = h
    · obtain ⟨rfl, hroot⟩ := hself hr hrid
      rw [hrid, ← hid₁]
      obtain ⟨a, ha, hname, hanative⟩ | ⟨b, hb, ⟨a, ha, hanative, hab⟩, c, hc, htype⟩ := hes e he
      · exact .single ⟨t₁, hroot, rfl, a, ha, hanative.trans hnative, hname ▸ htarget⟩
      · exact .head ⟨t₁, hroot, rfl, a, ha, hanative, hab⟩
          (.single ⟨b, hb, rfl, c, hc, htype ▸ hnative, htype ▸ htarget⟩)
    · obtain ⟨r₁, hr₁, hidr, hbases⟩ := hw.others r hr hrid
      exact .single ⟨r₁, hr₁, hidr, e, hbases ▸ he, hnative, htarget⟩
  · obtain ⟨r, hr, e, he, rfl⟩ := mem_baseNames_iff.mp hq
    by_cases hrid : r.id = h
    · obtain ⟨rfl, hroot⟩ := hself hr hrid
      obtain ⟨a, ha, hname, -⟩ | ⟨b, hb, -, c, hc, htype⟩ := hes e he
      · exact mem_baseNames_iff.mpr ⟨t₁, hroot, a, ha, hname⟩
      · exact mem_baseNames_iff.mpr ⟨b, hb, c, hc, congrArg (·.qname) htype⟩
    · obtain ⟨r₁, hr₁, -, hbases⟩ := hw.others r hr hrid
      exact mem_baseNames_iff.mpr ⟨r₁, hr₁, e, hbases ▸ he, rfl⟩

end Rebasing

/-- A change of the bases and fields of the type that is worked on. -/
theorem runs_edit (hg : Extends g []) (hstatus : ∀ t, (g t).status = t.status)
    (hs : s₁.Unwinding given s) (hw : Rebasing s₁ h es s)
    (hrooted : given → ∀ t, t.extensions = es → ∀ e ∈ (g t).extensions, e.type.native = false →
      s.RootOnly e.type.reference) :
    (dissolving given s₁ h).conduct.Runs (update h g) s fun _ s' => ∃ t, t.extensions = es ∧
      Rebasing s₁ h (g t).extensions s' := by
  have hchange : s.Change .flattening g [] s.nextHandle := .plain s hg fun u hlt => hstatus u ▸ hlt
  have hw' := hw.change hs.sound hchange hstatus
  obtain ⟨t, ht, rfl, hbusy, hbases⟩ := hw.self
  refine .update (hs.change hchange ht ?_ (.inl ((hstatus t).trans hbusy)) ?_ ?_)
    (hchange.progress _ hs.sound.handles t.id) hw'
  · exact hs.closed.inner_pending ht (not_lt_of_flattening hbusy)
  · exact fun hgiven => hrooted hgiven t hbases
  · exact fun x hx => absurd hx List.not_mem_nil

/-- The references of the bases of the type that is worked on. -/
theorem Rebasing.rooted (hw : Rebasing s₁ h es s) (hs : s₁.Unwinding given s) (hgiven : given) :
    ∀ e ∈ es, e.type.native = false → s.RootOnly e.type.reference := by
  obtain ⟨t, ht, -, -, rfl⟩ := hw.self
  exact hs.rooted hgiven t ht

/-- A change of the fields of the type that is worked on leaves its bases alone. -/
theorem runs_editFields (hg : ∀ t, g t = { t with fields := (g t).fields }) (hs : s₁.Unwinding given s)
    (hw : Rebasing s₁ h es s) :
    (dissolving given s₁ h).conduct.Runs (update h g) s fun _ s' => Rebasing s₁ h es s' := by
  have hbases : ∀ t, (g t).extensions = t.extensions := fun t => by rw [hg]
  refine (runs_edit ?_ (fun t => by rw [hg]) hs hw fun hgiven t ht => ?_).mono ?_
  · refine ⟨fun t => ?_, fun t => ?_, fun t => ?_, fun t => ?_⟩ <;> rw [hg]
    exact (List.append_nil t.inner).symm
  · rw [hbases, ht]
    exact hw.rooted hs hgiven
  · rintro _ s' - - ⟨t, rfl, hw'⟩
    rwa [hbases] at hw'

theorem runs_note {code type field message : String} (hs : s₁.Unwinding given s)
    (hw : Rebasing s₁ h es s) :
    (dissolving given s₁ h).conduct.Runs (warn code type field message) s fun _ s' => Rebasing s₁ h es s' := by
  refine (Discipline.runs_quiet hs rfl trivial).mono ?_
  rintro _ s' - - rfl
  exact ⟨hw.self, hw.others⟩

theorem runs_borrow_dissolving (hs₁ : s₁.Sound) (hne : source ≠ h) (hs : s₁.Unwinding given s)
    (hw : Rebasing s₁ h es s) (hl : Lending source bfs bes s) (q : QName) :
    (dissolving given s₁ h).conduct.Runs (borrow (.processing .flattening rounds process) source h q) s
      fun _ s' => Rebasing s₁ h es s' ∧ Lending source bfs bes s' := by
  obtain ⟨t, ht, rfl, hbusy, hbases⟩ := hw.self
  obtain ⟨src, hsrc, rfl, hbegun, -⟩ := id hl
  refine Discipline.runs_borrow (D := dissolving given s₁ t.id) hs ht hsrc hbegun q trivial ⟨hw, hl⟩
    fun c hc v hv hpending => ?_
  have hchange := Change.copy s hpending
  have hleads := hchange.progress .flattened hs.sound.handles t.id
  refine ⟨hs.change hchange ht ?_ (.inl hbusy) (hs.rooted · t ht) ?_, hleads, ?_, ?_⟩
  · exact hs.closed.inner_pending ht (not_lt_of_flattening hbusy)
  · intro x hx w hw
    rw [List.mem_singleton.mp hx] at hw
    exact hs.copy hs₁ hsrc hc hv hw
  · obtain ⟨_, rfl, hw'⟩ := hw.change hs.sound hchange fun _ => rfl
    exact hw'
  · exact hl.later hleads fun heq => hne (Option.some.inj heq)

theorem runs_copyFields_dissolving (hs₁ : s₁.Sound) (hne : source ≠ h) (hs : s₁.Unwinding given s)
    (hw : Rebasing s₁ h es s) (hl : Lending source bfs bes s) (r : Restrictions) (taken : List String)
    (positions : List Nat) :
    (dissolving given s₁ h).conduct.Runs
      (copyFields (.processing .flattening rounds process) source h r taken positions) s
      fun _ s' => Rebasing s₁ h es s' ∧ Lending source bfs bes s' := by
  induction positions generalizing s with
  | nil => exact .pure hs ⟨hw, hl⟩
  | cons i rest ih =>
    obtain ⟨src, hsrc, rfl, -⟩ := id hl
    rw [copyFields]
    refine Discipline.fieldOf_bind hs hsrc ?_
    split
    · exact ih hs hw hl
    · have hborrow : ∀ ft s, s₁.Unwinding given s →
          Rebasing s₁ h es s ∧ Lending src.id bfs bes s → (dissolving given s₁ h).conduct.Runs
            (borrowType (.processing .flattening rounds process) src.id h ft) s
            fun _ s' => Rebasing s₁ h es s' ∧ Lending src.id bfs bes s' := by
        intro ft s hs hJ
        unfold borrowType
        split
        · refine .bind (runs_borrow_dissolving hs₁ hne hs hJ.1 hJ.2 _) fun _ s' hs' _ hJ' => ?_
          exact .pure hs' hJ'
        · exact .pure hs hJ
      refine .bind (Conduct.Runs.mapTypesM_of_forall hborrow _ hs ⟨hw, hl⟩) fun _ s' hs' _ hJ => ?_
      refine .bind (ih hs' hJ.1.1 hJ.1.2) fun _ s'' hs'' _ hJ' => ?_
      exact .pure hs'' hJ'

/-- Copying a base adds bases that the base has. -/
theorem runs_copyBase_dissolving (hs₁ : s₁.Sound) (hne : source ≠ h) (hs : s₁.Unwinding given s)
    (hw : Rebasing s₁ h es s) (hl : Lending source bfs bes s) (ext : Extension) :
    (dissolving given s₁ h).conduct.Runs (copyBase (.processing .flattening rounds process) source h ext) s
      fun _ s' => ∃ added, Rebasing s₁ h (es ++ added) s' ∧ ∀ a ∈ added, ∃ c ∈ bes, c.type = a.type := by
  obtain ⟨src, hsrc, rfl, -⟩ := id hl
  unfold copyBase
  refine hw.typeOf_bind hs fun t _ => Discipline.typeOf_bind hs hsrc ?_
  refine .bind (runs_copyFields_dissolving hs₁ hne hs hw hl _ _ _) fun copies s' hs' _ hJ => ?_
  obtain ⟨hw', src', hsrc', hid', -, -, rfl⟩ := hJ
  rw [← hid']
  refine Discipline.typeOf_bind hs' hsrc' ?_
  have hadds : ∀ t : SchemaType, ∃ added,
      (({ t with fields := copies ++ t.fields } : SchemaType).addBases src'.extensions
        ext.restrictions).extensions = t.extensions ++ added ∧
      ∀ a ∈ added, ∃ c ∈ src'.extensions, c.type = a.type := by
    intro t
    obtain ⟨added, hext, hadded, -⟩ := exists_addBases (fun _ => 0)
      { t with fields := copies ++ t.fields } src'.extensions ext.restrictions
    exact ⟨added, hext, hadded⟩
  refine (runs_edit ?_ ?_ hs' hw' fun hgiven t ht e he hnative => ?_).mono ?_
  · refine ⟨fun t => ?_, fun t => ?_, fun t => ?_, fun t => ?_⟩ <;>
      simp only [addBases_id, addBases_qname, addBases_tag, addBases_inner, List.append_nil]
  · intro t
    simp only [addBases_status]
  · obtain ⟨added, hext, hadded⟩ := hadds t
    rw [hext, ht] at he
    obtain he | he := List.mem_append.mp he
    · exact hw'.rooted hs' hgiven e he hnative
    · obtain ⟨c, hc, htype⟩ := hadded e he
      rw [← htype] at hnative ⊢
      exact hs'.rooted hgiven src' hsrc' c hc hnative
  · rintro _ s'' - - ⟨t, rfl, hw''⟩
    obtain ⟨added, hext, hadded⟩ := hadds t
    exact ⟨added, hext ▸ hw'', hadded⟩

/-- What has become of the base at a position: a base that is kept leads upward, and in place of
another one there may be bases of it at the end. -/
def Dealt (s₁ : Store) (t₁ : SchemaType) (pre : List Extension) (kept : Bool) (s : Store) : Prop :=
  ∃ mid rest, Rebasing s₁ t₁.id (pre ++ (mid ++ rest)) s ∧
    (∀ e ∈ pre ++ (mid ++ rest), s₁.Passes t₁ e) ∧ (∀ e ∈ mid, s₁.Upward t₁.id e) ∧
    mid.length = if kept then 1 else 0

/-- A base is taken off, and bases of it may be put on. -/
theorem runs_drop {y : Compile Bool} (hs : s₁.Unwinding given s₁) (ht₁ : s₁.Holds t₁)
    (hbusy : t₁.status = .flattening) (hbases : t₁.extensions = pre ++ e :: post)
    (hy : ∀ s, s₁.Unwinding given s → Rebasing s₁ t₁.id (pre ++ post) s →
      Progress .flattening .flattened (some t₁.id) s₁ s →
      (dissolving given s₁ t₁.id).conduct.Runs y s fun kept s' => kept = false ∧ ∃ added,
        Rebasing s₁ t₁.id (pre ++ post ++ added) s' ∧ ∀ a ∈ added, s₁.Passes t₁ a) :
    (dissolving given s₁ t₁.id).conduct.Runs (dropBase t₁.id pre.length >>= fun _ => y) s₁
      (Dealt s₁ t₁ pre) := by
  have hw := Rebasing.start ht₁ rfl hbusy
  have herase : ∀ t : SchemaType, t.extensions = t₁.extensions →
      t.extensions.eraseIdx pre.length = pre ++ post := by
    intro t ht
    simp [ht, hbases, List.eraseIdx_append_of_length_le]
  have hsub : ∀ a ∈ pre ++ post, a ∈ t₁.extensions := by
    intro a ha
    rw [hbases]
    simp only [List.mem_append, List.mem_cons] at ha ⊢
    exact ha.imp_right .inr
  unfold dropBase
  refine .bind (runs_edit ?_ (fun _ => rfl) hs hw ?_) fun _ s hs hleads hw => ?_
  · exact ⟨fun _ => rfl, fun _ => rfl, fun _ => rfl, fun t => (List.append_nil t.inner).symm⟩
  · intro hgiven t ht a ha
    rw [herase t ht] at ha
    exact hs.rooted hgiven t₁ ht₁ a (hsub a ha)
  · obtain ⟨t, ht, hw⟩ := hw
    rw [herase t ht] at hw
    refine (hy s hs hw hleads).mono ?_
    rintro _ s' - - ⟨rfl, added, hw', hadded⟩
    refine ⟨[], post ++ added, by simpa using hw', fun a ha => ?_, by simp, by simp⟩
    rw [List.nil_append, ← List.append_assoc] at ha
    obtain ha | ha := List.mem_append.mp ha
    · exact passes_of_mem (hsub a ha)
    · exact hadded a ha

theorem dropped_of_rebasing (hw : Rebasing s₁ t₁.id es s) : false = false ∧ ∃ added,
    Rebasing s₁ t₁.id (es ++ added) s ∧ ∀ a ∈ added, s₁.Passes t₁ a :=
  ⟨rfl, [], by simpa using hw, by simp⟩

/-- A base is dissolved into the fields of the type. -/
theorem runs_dissolve {g : SchemaType → SchemaType} (hg : ∀ t, g t = { t with fields := (g t).fields })
    (hs : s₁.Unwinding given s₁) (ht₁ : s₁.Holds t₁) (hbusy : t₁.status = .flattening)
    (hbases : t₁.extensions = pre ++ e :: post) :
    (dissolving given s₁ t₁.id).conduct.Runs (do dropBase t₁.id pre.length; update t₁.id g; pure false) s₁
      (Dealt s₁ t₁ pre) := by
  refine runs_drop hs ht₁ hbusy hbases fun s hs hw _ => ?_
  refine .bind (runs_editFields hg hs hw) fun _ s hs _ hw => ?_
  exact .pure hs (dropped_of_rebasing hw)

/-- A base is kept and bound. -/
theorem runs_bind (hs : s₁.Unwinding given s₁) (ht₁ : s₁.Holds t₁) (hbusy : t₁.status = .flattening)
    (hbases : t₁.extensions = pre ++ e :: post) (hnative : e.type.native = false)
    (hstraight : ¬ s₁.Leads e.type.qname t₁.id) {b : SchemaType} (hb : b ∈ s₁.types)
    (htarget : s₁.Target e.type.qname b.id) :
    (dissolving given s₁ t₁.id).conduct.Runs (do
      update t₁.id fun t => { t with extensions := t.extensions.modify pre.length fun e =>
        { e with type.reference := b.id } }
      pure true) s₁ (Dealt s₁ t₁ pre) := by
  have hmodify : ∀ t : SchemaType, t.extensions = t₁.extensions →
      t.extensions.modify pre.length (fun e => { e with type.reference := b.id }) =
        pre ++ ([{ e with type.reference := b.id }] ++ post) := by
    intro t ht
    rw [ht, hbases, Lists.modify_append_cons, List.singleton_append]
  refine .bind (runs_edit ?_ (fun _ => rfl) hs (.start ht₁ rfl hbusy) ?_) fun _ s hs _ hw => ?_
  · exact ⟨fun _ => rfl, fun _ => rfl, fun _ => rfl, fun t => (List.append_nil t.inner).symm⟩
  · intro hgiven t ht a ha hanative
    rw [hmodify t ht] at ha
    simp only [List.mem_append, List.mem_singleton] at ha
    obtain ha | rfl | ha := ha
    · exact hs.rooted hgiven t₁ ht₁ a (by simp [hbases, ha]) hanative
    · refine ⟨hs.sound.below b.id (mem_handles_iff.mpr ⟨b, holds_of_mem_types hb, rfl⟩), ?_⟩
      intro u hu hid
      rwa [hu.eq_of_id hs.sound.handles (holds_of_mem_types hb) hid]
    · exact hs.rooted hgiven t₁ ht₁ a (by simp [hbases, ha]) hanative
  · obtain ⟨t, ht, hw⟩ := hw
    rw [hmodify t ht] at hw
    refine .pure hs ⟨[_], post, hw, fun a ha => ?_, fun a ha => ?_, rfl⟩
    · simp only [List.mem_append, List.mem_singleton] at ha
      obtain ha | rfl | ha := ha
      · exact passes_of_mem (by simp [hbases, ha])
      · exact .inl ⟨e, by simp [hbases], rfl, rfl⟩
      · exact passes_of_mem (by simp [hbases, ha])
    · rw [List.mem_singleton.mp ha]
      exact ⟨hnative, htarget, hstraight⟩

-- ---------------------------------------------------------------------------
-- One base after the other
-- ---------------------------------------------------------------------------

/-- The bases before a position lead upward. -/
def Straight (h : Handle) (i : Nat) (s : Store) : Prop :=
  ∃ t, s.Holds t ∧ t.id = h ∧ t.status = .flattening ∧ ∃ pre post, t.extensions = pre ++ post ∧
    pre.length = i ∧ ∀ e ∈ pre, s.Upward h e

/-- When a base has been dealt with, bases lead to no more types than before. -/
theorem runs_of_dissolving {x : Compile Bool} (hs₁ : s₁.Unwinding given s₁) (ht₁ : s₁.Holds t₁)
    (hpre : ∀ e ∈ pre, s₁.Upward t₁.id e)
    (hx : (dissolving given s₁ t₁.id).conduct.Runs x s₁ (Dealt s₁ t₁ pre)) :
    (unwinding given (some t₁.id)).conduct.Runs x s₁ fun kept s' =>
      Straight t₁.id (if kept then pre.length + 1 else pre.length) s' := by
  refine wp_mono hx ?_ fun _ _ hfails => hfails
  rintro kept s' ⟨hs', hleads, mid, rest, hw, hpasses, hmid, hlength⟩
  have hshrinks := hw.shrinks hs₁.sound hs'.sound hs'.outline ht₁ rfl hpasses
  refine ⟨hs'.rebase hs₁.sound hshrinks, ⟨hleads, hshrinks⟩, ?_⟩
  obtain ⟨t, ht, hid, hbusy, hbases⟩ := hw.self
  refine ⟨t, ht, hid, hbusy, pre ++ mid, rest, by simpa using hbases, ?_, fun e he => ?_⟩
  · cases kept <;> simp [hlength]
  · refine Upward.shrinks ?_ hs₁.sound hs'.sound hshrinks
    obtain he | he := List.mem_append.mp he
    · exact hpre e he
    · exact hmid e he

theorem runs_settleBase_unwinding (hprocess : (unwinding given none).Processes n process)
    (hs : s.Unwinding given s) (ht : s.Holds t) (hbusy : t.status = .flattening)
    (hbases : t.extensions = pre ++ e :: post) (hpre : ∀ a ∈ pre, s.Upward t.id a)
    (hn : (s.pending .flattening).length < n) :
    (unwinding given (some t.id)).conduct.Runs
      (settleBase (.processing .flattening (rounds + 2) process) t.id pre.length e) s
      fun kept s' => Straight t.id (if kept then pre.length + 1 else pre.length) s' := by
  unfold settleBase
  dsimp only
  split
  · -- a native base
    exact runs_of_dissolving hs ht hpre (runs_dissolve (dissolveNative_eq · e) hs ht hbusy hbases)
  case isFalse hnot =>
  have hnative : e.type.native = false := by
    rw [Bool.or_eq_true, not_or] at hnot
    exact Bool.eq_false_iff.mpr hnot.1
  refine .get_bind ?_
  split
  · -- a base that leads back
    refine runs_of_dissolving hs ht hpre (runs_drop hs ht hbusy hbases fun s hs hw _ => ?_)
    refine hw.typeOf_bind hs fun _ _ => .bind (runs_note hs hw) fun _ s hs _ hw => ?_
    exact .pure hs (dropped_of_rebasing hw)
  case isFalse hleads =>
  have hstraight := not_leads_of_leadsTo hs.sound (Bool.eq_false_iff.mpr hleads)
  refine .bind ((hprocess.prefer hs hn _ _ rounds).under id
    fun _ hs' hleads => ⟨hs', hleads.1.of_none _, hleads.2⟩) fun r s' hs' hleads hr => ?_
  obtain ⟨hr, hidle, -⟩ := hr
  -- the type that is worked on is as it was, and its bases lead no further
  obtain ⟨t', ht', hid, hbusy', -, hbases'⟩ :=
    hidle.begun (by decide) ht (not_lt_of_flattening hbusy) nofun
  rw [hbusy] at hbusy'
  rw [hbases] at hbases'
  have hpre' : ∀ a ∈ pre, s'.Upward t.id a := fun a ha =>
    (hpre a ha).shrinks hs.sound hs'.sound hleads.2
  have hstraight' : ¬ s'.Leads e.type.qname t.id := fun hlead =>
    hstraight (hleads.2.leads hs.sound hs'.sound hlead)
  rw [← hid] at hpre' hstraight' ⊢
  generalize hfound : s'.preferred? e.type.qname .complexType = found at hr
  cases hr with
  | none =>
    refine runs_of_dissolving hs' ht' hpre' (runs_drop hs' ht' hbusy' hbases' fun s hs hw _ => ?_)
    refine hw.typeOf_bind hs fun _ _ => .get_bind (.bind (runs_note hs hw) fun _ s hs _ hw => ?_)
    exact .pure hs (dropped_of_rebasing hw)
  | @some b hbegun =>
    have hb := (hs'.sound.preferred? hfound).1
    have htarget : s'.Target e.type.qname b.id := by rw [Target, hfound, Option.map_some]
    have hne : b.id ≠ t'.id := fun heq => hstraight' ⟨b.id, htarget, heq ▸ .refl⟩
    refine Discipline.typeOf_bind hs' ht' (Discipline.typeOf_bind hs' (holds_of_mem_types hb) ?_)
    split
    · -- an enumeration
      exact runs_of_dissolving hs' ht' hpre'
        (runs_dissolve (dissolveEnumeration_eq · b e) hs' ht' hbusy' hbases')
    split
    · -- a simple type for an enumeration
      exact runs_of_dissolving hs' ht' hpre' (runs_dissolve (fun _ => rfl) hs' ht' hbusy' hbases')
    split
    · -- the base is copied
      refine runs_of_dissolving hs' ht' hpre' (runs_drop hs' ht' hbusy' hbases' fun s hs hw hleads => ?_)
      have hlend : Lending b.id b.fields b.extensions s :=
        Lending.later ⟨b, holds_of_mem_types hb, rfl, hbegun, rfl, rfl⟩ hleads
          fun heq => hne (Option.some.inj heq)
      refine .bind (runs_copyBase_dissolving hs'.sound hne hs hw hlend e) fun _ s hs _ hcopied => ?_
      obtain ⟨added, hw, hadded⟩ := hcopied
      refine .pure hs ⟨rfl, added, hw, fun a ha => .inr ⟨b, hb, ⟨e, ?_, hnative, htarget⟩, hadded a ha⟩⟩
      rw [hbases']
      exact List.mem_append_right _ List.mem_cons_self
    split
    · -- the type restates all its fields
      refine runs_of_dissolving hs' ht' hpre' (runs_drop hs' ht' hbusy' hbases' fun s hs hw _ => ?_)
      exact .pure hs (dropped_of_rebasing hw)
    · exact runs_of_dissolving hs' ht' hpre'
        (runs_bind hs' ht' hbusy' hbases' hnative hstraight' hb htarget)

theorem runs_settleFrom_unwinding (hprocess : (unwinding given none).Processes n process)
    (rounds left : Nat) {i : Nat} (hs : s.Unwinding given s) (hw : Straight h i s)
    (hn : (s.pending .flattening).length < n) :
    (unwinding given (some h)).conduct.Runs
      (settleFrom (.processing .flattening (rounds + 2) process) h left i) s
      fun _ s' => ∃ t, s'.Holds t ∧ t.id = h ∧ t.status = .flattening ∧
        ∀ e ∈ t.extensions, s'.Upward h e := by
  induction left generalizing s i with
  | zero =>
    rw [settleFrom]
    exact .throw ⟨trivial, List.Subset.refl _⟩
  | succ left ih =>
    obtain ⟨t, ht, rfl, hbusy, pre, post, hbases, rfl, hpre⟩ := hw
    rw [settleFrom]
    refine Discipline.typeOf_bind hs ht ?_
    cases post with
    | nil =>
      rw [List.append_nil] at hbases
      rw [hbases, List.getElem?_eq_none (Nat.le_refl _)]
      exact .pure hs ⟨t, ht, rfl, hbusy, hbases ▸ hpre⟩
    | cons e post =>
      have hext : t.extensions[pre.length]? = some e := by simp [hbases]
      simp only [hext]
      refine .bind (runs_settleBase_unwinding hprocess hs ht hbusy hbases hpre hn)
        fun kept s' hs' hleads hw' => ?_
      exact ih hs' hw' ((unwinding given (some t.id)).length_pending_lt hs' hleads hn)

-- ---------------------------------------------------------------------------
-- The step
-- ---------------------------------------------------------------------------

theorem applies_settleBases_unwinding (hprocess : (unwinding given none).Processes n process) :
    (unwinding given none).Applies n
      (Step.settleBases.apply (rounds + 2) (.processing .flattening (rounds + 2) process)) := by
  intro s u hs hu hlt hinner hn
  have hbusy : ¬ Status.flattening < .flattening := by decide
  have hdone : ¬ Status.flattened < .flattening := by decide
  -- the type is begun
  have hbegin := Change.setStatus s hbusy
  have hs₁ := (hs.change hbegin hu (List.flatMap_eq_nil_iff.mpr hinner) (.inl rfl) (hs.rooted · u hu)
    (by simp)).rebase hs.sound (.setStatus hs.sound hu hbusy)
  have hleads₁ := hbegin.progress .flattened hs.sound.handles u.id
  have hu₁ := hbegin.holds hs.sound hu
  have hn₁ := hleads₁.length_pending_lt hs₁.sound.handles
    ((hu.mem_pending_iff hs.sound.handles).mpr hlt)
    (mt (hu₁.mem_pending_iff hs₁.sound.handles).mp hbusy)
  have hsettle := runs_settleFrom_unwinding hprocess rounds (rounds + 2) hs₁
    ⟨_, hu₁, rfl, rfl, [], u.extensions, rfl, rfl, by simp⟩ (Nat.lt_of_lt_of_le hn₁ hn)
  unfold Conduct.Runs Step.apply
  rw [wp_bind, wp_update, wp_bind]
  have hpass : (unwinding given (some u.id)).conduct.Runs (Pass.flattenBases.run (rounds + 2)
      (.processing .flattening (rounds + 2) process) u.id) _ _ := hsettle
  refine wp_mono (Discipline.runs_runPasses (mem_handles_iff.mpr ⟨_, hu₁, rfl⟩) hpass) ?_ ?_
  · rintro _ s₂ ⟨hs₂, ⟨hleads₂, hshrinks₂⟩, t, ht, hid, hstatus₂, hup⟩
    have hend := Change.setStatus s₂ hdone
    have hs₃ := (Unwinding.change hs₂ hend ht
      (hs₂.closed.inner_pending ht (not_lt_of_flattening hstatus₂)) (.inr ⟨rfl, hid ▸ hup⟩)
      (hs₂.rooted · t ht) (by simp)).rebase hs₂.sound (.setStatus hs₂.sound ht hdone)
    have ht₃ := hend.holds hs₂.sound ht
    have hleads₃ := (hleads₁.trans (by decide) hleads₂).trans (by decide)
      (hend.progress _ hs₂.sound.handles u.id)
    have hshrinks₃ := ((Shrinks.setStatus hs.sound hu hbusy).trans hshrinks₂).trans
      (.setStatus hs₂.sound ht hdone)
    have hnot : t.id ∉ Store.pending .flattening _ :=
      mt (ht₃.mem_pending_iff hs₃.sound.handles).mp hdone
    rw [hid] at hs₃ ht₃ hnot hshrinks₃
    rw [wp_update]
    exact ⟨hs₃, ⟨hleads₃.finish hs.sound hs₃.sound hu (hs.raw hu hlt) ht₃ rfl rfl, hshrinks₃⟩, hnot⟩
  · rintro f s₂ ⟨-, hhandles⟩
    exact ⟨trivial, List.Subset.trans hleads₁.grows.handles_subset hhandles⟩

theorem runs_settleBases_unwinding (hs : s.Unwinding given s) :
    (unwinding given none).conduct.Runs (Step.settleBases.run false) s
      fun _ s' => s'.pending .flattening = [] :=
  Discipline.run rfl rfl rfl hs fun _ _ _ _ _ hprocess => applies_settleBases_unwinding hprocess

-- ---------------------------------------------------------------------------
-- Circles
-- ---------------------------------------------------------------------------

namespace Store.Unwinding

/-- A type that is done inherits from roots, by bases that lead to them. -/
theorem target_of_inheritsFrom (hs : s.Unwinding given s) (hdone : t.status = .flattened)
    {b : SchemaType} (hb : s.InheritsFrom t b) :
    b ∈ s.types ∧ ∃ e ∈ t.extensions, s.Upward t.id e ∧ s.Target e.type.qname b.id := by
  obtain ⟨ht, hheld, e, he, -, href⟩ := hb
  have hup := hs.upward t ht hdone e he
  have htarget := hup.target
  rw [href] at htarget
  obtain ⟨r, hr, -, hid, -⟩ := hs.sound.exists_of_target htarget
  obtain rfl := (holds_of_mem_types hr).eq_of_id hs.sound.handles hheld hid
  exact ⟨hr, e, he, hup, htarget⟩

/-- No type that is done is on a circle: one of its bases would lead to it. -/
theorem not_circle (hs : s.Unwinding given s) (hroots : ∀ r ∈ s.types, r.status = .flattened)
    (hdone : t.status = .flattened) : ¬ TransGen s.InheritsFrom t t := by
  have hpath : ∀ {b c}, b ∈ s.types → ReflTransGen s.InheritsFrom b c →
      c ∈ s.types ∧ ReflTransGen s.Next b.id c.id := by
    intro b c hb hreach
    induction hreach with
    | refl => exact ⟨hb, .refl⟩
    | tail _ hc ih =>
      obtain ⟨hmem, hnext⟩ := ih
      obtain ⟨hroot, e, he, hup, htarget⟩ := hs.target_of_inheritsFrom (hroots _ hmem) hc
      exact ⟨hroot, hnext.tail ⟨_, hmem, rfl, e, he, hup.native, htarget⟩⟩
  intro hcircle
  obtain ⟨b, hb, hreach⟩ := TransGen.head'_iff.mp hcircle
  obtain ⟨hroot, e, -, hup, htarget⟩ := hs.target_of_inheritsFrom hdone hb
  exact hup.straight ⟨b.id, htarget, (hpath hroot hreach).2⟩

end Store.Unwinding

/-- Circles of bound bases, when bases have been settled. Every type that is on one is a copy that was
made in the course of the step and is left unfinished; so no type that has been there is on a circle, and
there are none at all if no base, other than a native one, has been bound to a nested type from the
start. -/
theorem settleBases_circles (hs : s.Sound) (hraw : ∀ u, s.Holds u → u.status = .raw) :
    wp (Step.settleBases.run false)
      (fun _ s' =>
        (∀ t, TransGen s'.InheritsFrom t t → t.status = .flattening ∧ t.id ∉ s.handles) ∧
        ((∀ u, s.Holds u → ∀ e ∈ u.extensions, e.type.native = false → s.RootOnly e.type.reference) →
          ∀ t, ¬ TransGen s'.InheritsFrom t t))
      (fun _ _ => True) s := by
  refine wp_mono (runs_settleBases_unwinding (.start hs hraw)) ?_ fun _ _ _ => trivial
  rintro _ s' ⟨hs', ⟨hprogress, -⟩, hnil⟩
  have hbegun : ∀ {u}, s'.Holds u → ¬ u.status < .flattening := fun hu hlt =>
    absurd ((hu.mem_pending_iff hs'.sound.handles).mpr hlt) (hnil ▸ List.not_mem_nil)
  have hdone : ∀ {u'}, s'.Holds u' → u'.id ∈ s.handles → u'.status = .flattened := by
    intro u' hu' hmem
    obtain ⟨u, hu, hid⟩ := mem_handles_iff.mp hmem
    obtain ⟨v, hv, hvid, -, hadvances⟩ := hprogress.types u hu
    obtain rfl := hv.eq_of_id hs'.sound.handles hu' (hvid.trans hid)
    obtain ⟨hsame, -⟩ | ⟨-, hend⟩ := hadvances nofun
    · refine absurd ?_ (hbegun hv)
      rw [hsame, hraw u hu]
      decide
    · exact hend
  have hold : ∀ {r}, r ∈ s'.types → r.id ∈ s.handles := by
    intro r hr
    obtain ⟨r₀, hr₀, hid, -⟩ := exists_of_outline hprogress.outline hr
    exact mem_handles_iff.mpr ⟨r₀, holds_of_mem_types hr₀, hid⟩
  have hnew : ∀ t, TransGen s'.InheritsFrom t t → t.status = .flattening ∧ t.id ∉ s.handles := by
    intro t hcircle
    have ht : s'.Holds t := by
      obtain ⟨b, hb, -⟩ := TransGen.head'_iff.mp hcircle
      exact hb.1
    have hnot : t.status ≠ .flattened := fun hend =>
      hs'.not_circle (fun r hr => hdone (holds_of_mem_types hr) (hold hr)) hend hcircle
    refine ⟨?_, fun hmem => hnot (hdone ht hmem)⟩
    obtain hstatus | hstatus | hstatus := hs'.status t ht
    · exact absurd (hstatus ▸ by decide) (hbegun ht)
    · exact hstatus
    · exact absurd hstatus hnot
  refine ⟨hnew, fun hgiven t hcircle => ?_⟩
  -- the last base of the circle is bound to a copy, which is no root
  obtain ⟨c, -, hc, ht, e, he, hnative, href⟩ := TransGen.tail'_iff.mp hcircle
  have hroot := (hs'.rooted hgiven c hc e he hnative).2 t ht href.symm
  exact (hnew t hcircle).2 (hold hroot)

namespace Mirrored

open Sample

/-- The nested type of the first record has the second one as its base, which is bound to the nested type
itself. The second record copies the first, since a wildcard has to stay its last field. -/
def store : Store :=
  ({} : Store).insertAll [
    { record "S" [] [] with
      fields := [{ tag := .element, name := "a", types := [{ qname := ⟨"urn:t", "I"⟩, forward := true }] }]
      inner := [{ record "I" [] [] with
        extensions := [{ tag := .extension, type := { qname := ⟨"urn:t", "X"⟩, reference := 2 } }] }] },
    { record "X" [] ["S"] with fields := [{ tag := .any, name := "rest" }] }]

/-- While the nested type is worked on, its base makes a copy of it. The copy is left as it is, with a
base that is bound to the copy itself. -/
theorem settleBases_leaves_circle :
    store.Sound ∧ (∀ u, store.Holds u → u.status = .raw) ∧
    wp (Step.settleBases.run false) (fun _ s' => ∃ t, TransGen s'.InheritsFrom t t) (fun _ _ => False)
      store := by
  have hraw : ∀ u, store.Holds u → u.status = .raw := by
    simp only [holds_iff_mem_walkAll]
    decide +kernel
  refine ⟨.insertAll (.empty {}) (.empty {}) (by decide), hraw, ?_⟩
  have hrun : wp (Step.settleBases.run false)
      (fun _ s' => ∃ t ∈ walkAll s'.types, ∃ e ∈ t.extensions,
        e.type.native = false ∧ e.type.reference = t.id) (fun _ _ => False) store := by
    decide +kernel
  refine wp_mono hrun ?_ fun _ _ hfalse => hfalse
  rintro _ s' ⟨t, ht, hself⟩
  have hheld := holds_iff_mem_walkAll.mpr ht
  exact ⟨t, .single ⟨hheld, hheld, hself⟩⟩

end Mirrored

namespace Revolving

open Sample

/-- Three records each of which extends the next, and a nested type that extends the record it is in. -/
def store : Store :=
  ({} : Store).insertAll [{ record "A" ["x"] ["B"] with inner := [record "I" ["i"] ["A"]] },
    record "B" ["y"] ["C"], record "C" ["z"] ["A"]]

theorem settleBases_breaks_circle :
    store.Sound ∧ (∀ u, store.Holds u → u.status = .raw) ∧
    wp (Step.settleBases.run false) (fun _ s' => ∀ t, ¬ TransGen s'.InheritsFrom t t) (fun _ _ => False)
      store := by
  have hs : store.Sound := .insertAll (.empty {}) (.empty {}) (by decide)
  have hraw : ∀ u, store.Holds u → u.status = .raw := by
    simp only [holds_iff_mem_walkAll]
    decide +kernel
  have hunbound : ∀ u, store.Holds u → ∀ e ∈ u.extensions, e.type.native = false →
      store.RootOnly e.type.reference := by
    have hunset : ∀ u ∈ walkAll store.types, u.id ≠ 0 ∧ ∀ e ∈ u.extensions, e.type.reference = 0 := by
      decide +kernel
    intro u hu e he _
    rw [(hunset u (holds_iff_mem_walkAll.mp hu)).2 e he]
    exact ⟨by decide +kernel,
      fun v hv hid => absurd hid (hunset v (holds_iff_mem_walkAll.mp hv)).1⟩
  have hends : wp (Step.settleBases.run false) (fun _ _ => True) (fun _ _ => False) store := by
    decide +kernel
  refine ⟨hs, hraw, wp_mono (wp_and (settleBases_circles hs hraw) hends) ?_ fun _ _ hfalse => hfalse.2⟩
  rintro _ s' ⟨⟨-, hacyclic⟩, -⟩
  exact hacyclic hunbound

end Revolving

end Schemata
