import Schemata.Pipeline.Stage
import Schemata.Proofs.Binding.Promoting
import Schemata.Proofs.Inherit.Flattening

/-!
# Promotion while types are flattened

What the passes of flattening do to a type, as far as dependencies on the name of a promoted type are
concerned: each pass keeps up that they honour the roots of the name.
-/

namespace Schemata.Upkeep

open Compile SchemaType

variable {α : Type} {q q' : QName} {i h k source : Handle} {s s' : Store} {t t' b : SchemaType} {x : Compile α}
  {Q : α → Store → Prop} {rounds : Nat} {process : Handle → Compile Unit} {ft : FieldType} {f : Field}
  {fs : List Field} {j n : Nat} {finder : Finder}

-- ---------------------------------------------------------------------------
-- Looking types up
-- ---------------------------------------------------------------------------

/-- What goes on between types leaves the type that is worked on begun. -/
theorem keeps_promotingAt (hh : s.Started h) (hx : (promoting q i).conduct.Runs x s Q) :
    (promotingAt q i h).conduct.Runs x s fun a s' => Q a s' ∧ Store.Carries none s s' :=
  hx.under id fun _ hs' hcarries => ⟨⟨hs', hh.carries hcarries⟩, Store.Carries.of_none hcarries (some h)⟩

/-- What is found is a root of the name that has been begun. -/
def FoundRoot (q : QName) (r : Option Handle) (s : Store) : Prop :=
  ∀ k, r = some k → ∃ b ∈ s.types, b.id = k ∧ b.qname = q ∧ b.pending .flattening = []

/-- Looking up keeps up what is kept up between types. What is found has been begun, and of a type that
has been begun nested types are looked up as they are. -/
structure Guides (q : QName) (i : Handle) (finder : Finder) : Prop where
  find : ∀ ⦃s⦄ q' p, s.Promoting q i → (promoting q i).conduct.Runs (finder.find q' p) s (FoundRoot q')
  findInner : ∀ ⦃s h k t⦄ q', (promotingAt q i h).Inv s → s.get? k = some t → t.pending .flattening = [] →
    (promotingAt q i h).conduct.Runs (finder.findInner k q') s fun r s' => s' = s ∧ ∃ v, Nested v t ∧ v.id = r

theorem Works.guides (hprocess : (promoting q i).Works process) :
    Guides q i (.processing .flattening rounds process) where
  find s q' p hs := by
    refine (hprocess.findProcessed q' p rounds hs trivial).mono fun r s' hs' _ hr k hk => ?_
    obtain ⟨-, t, hlookup, hid, hbegun⟩ := hr k hk
    obtain ⟨ht, hq⟩ := Store.Promoting.lookup? hs' hlookup
    exact ⟨t, ht, hid, hq, (Store.Promoting.honest hs' t (Store.holds_of_mem_types ht).knows).begun hbegun⟩
  findInner s h k t q' hs ht hbegun := by
    unfold Finder.processing findNested
    dsimp only
    rw [bind_assoc]
    refine typeOf_bind fun t' ht' => ?_
    obtain rfl := Option.some.inj (ht.symm.trans ht')
    cases hnested : t.nested? q' with
    | none => exact .throw trivial
    | some v =>
      have hv : Nested v t := mem_walkAll_inner_iff.mp (List.mem_of_find?_eq_some hnested)
      rw [pure_bind, if_neg (pending_eq_nil_iff.mp hbegun v hv.within)]
      exact .pure hs ⟨rfl, v, hv, rfl⟩

theorem Guides.findPreferred (hfinder : Guides q i finder) (q' : QName) (tag : Tag) (hs : s.Promoting q i) :
    (promoting q i).conduct.Runs (finder.findPreferred q' tag) s (FoundRoot q') := by
  unfold Finder.findPreferred
  induction preferences tag generalizing s with
  | nil => exact .pure hs nofun
  | cons p ps ih =>
    rw [Finder.findPreferred.go]
    refine .bind (hfinder.find q' p hs) fun r s' hs' _ hr => ?_
    cases r with
    | none => exact ih hs'
    | some k => exact .pure hs' hr

/-- What goes on between types leaves references of the type that is worked on, unless they lead forward. -/
theorem resembles_of_carries (hs : (promotingAt q i h).Inv s) (hs' : (promotingAt q i h).Inv s')
    (hc : Store.Carries none s s') (ht : s.get? h = some t) (ht' : s'.get? h = some t') : Resembles t t' := by
  obtain ⟨hknows, rfl⟩ := Store.knows_of_get? ht
  obtain ⟨hknows', hid'⟩ := Store.knows_of_get? ht'
  obtain ⟨u, hu, hid, hbegun⟩ := hs.2
  obtain rfl := hknows.eq_of_id hs.1.whole hu hid.symm
  obtain ⟨u', hu', hcontinues⟩ := hc.types t hknows
  obtain rfl := hknows'.eq_of_id hs'.1.whole hu' (hid'.trans hcontinues.id.symm)
  exact hcontinues.follows (Option.some_ne_none _) hbegun

/-- The type with a handle, when it has been begun. -/
theorem keeps_typeOf_bind {β : Type} {f : SchemaType → Compile β} {Q : β → Store → Prop}
    (hs : (promotingAt q i h).Inv s) (hk : s.Started k)
    (hf : ∀ t, s.get? k = some t → s.Knows t → t.id = k → t.pending .flattening = [] →
      (promotingAt q i h).conduct.Runs (f t) s Q) :
    (promotingAt q i h).conduct.Runs (typeOf k >>= f) s Q := by
  refine typeOf_bind fun t ht => ?_
  obtain ⟨hknows, hid⟩ := Store.knows_of_get? ht
  obtain ⟨u, hu, hid', hbegun⟩ := hk
  obtain rfl := hknows.eq_of_id hs.1.whole hu (hid.trans hid'.symm)
  exact hf t ht hknows hid hbegun

-- ---------------------------------------------------------------------------
-- Changing the type that is worked on
-- ---------------------------------------------------------------------------

/-- The same type, but for its fields and bases. -/
structure Restated (t t' : SchemaType) : Prop where
  id : t'.id = t.id
  qname : t'.qname = t.qname
  status : t'.status = t.status
  substitutions : t'.substitutions = t.substitutions

theorem Restated.honest (ht : Restated t b) (hhonest : t.Honest s q i)
    (hpending : b.pending .flattening ⊆ t.pending .flattening)
    (hfields : ∀ f ∈ b.fields, f.Throughout (FieldType.Honours s q i))
    (hbases : ∀ e ∈ b.extensions, e.Honours s q i) : b.Honest s q i where
  handle := ht.id ▸ hhonest.handle
  begun hbegun := List.eq_nil_of_subset_nil (hhonest.begun (ht.status ▸ hbegun) ▸ hpending)
  fields := hfields
  bases := hbases
  heads hid := ht.substitutions.trans (hhonest.heads (ht.id ▸ hid))

theorem Restated.pending_eq (ht : Restated t b) (hinner : b.inner = t.inner) :
    b.pending .flattening = t.pending .flattening := by
  rw [SchemaType.pending_eq, SchemaType.pending_eq t, hinner, ht.id, ht.status]

theorem keeps_update {g : SchemaType → SchemaType} (hs : (promotingAt q i h).Inv s)
    (hg : ∀ t, s.get? h = some t → t.Honest s q i → Restated t (g t) ∧ (g t).inner = t.inner ∧
      (∀ f ∈ (g t).fields, f.Throughout (FieldType.Honours s q i)) ∧
      ∀ e ∈ (g t).extensions, e.Honours s q i) :
    (promotingAt q i h).conduct.Runs (update h g) s fun _ _ => True := by
  obtain ⟨t, ht, rfl, hbegun⟩ := hs.2
  have hhonest := hs.1.honest t ht
  obtain ⟨hrestated, hinner, hfields, hbases⟩ := hg t (hs.1.get? ht) hhonest
  have hpending : (g t).pending .flattening ⊆ t.pending .flattening := by
    rw [hrestated.pending_eq hinner]
    exact List.Subset.refl _
  obtain ⟨hs', hcarries, -⟩ := hs.1.update g s.nextHandle [] ht hrestated.id hrestated.qname
    (by rw [hinner, List.append_nil]) (.nil _)
    (hrestated.honest hhonest hpending hfields hbases) hpending
    fun x hx => absurd hx List.not_mem_nil
  exact .update ⟨hs', hs.2.carries hcarries⟩ hcarries trivial

/-- A change of the fields alone. -/
theorem keeps_updateFields {g : SchemaType → SchemaType} (hs : (promotingAt q i h).Inv s)
    (hg : ∀ t, g t = { t with fields := (g t).fields })
    (hfields : ∀ t, s.get? h = some t → (∀ f ∈ t.fields, f.Throughout (FieldType.Honours s q i)) →
      ∀ f ∈ (g t).fields, f.Throughout (FieldType.Honours s q i)) :
    (promotingAt q i h).conduct.Runs (update h g) s fun _ _ => True := by
  refine keeps_update hs fun t ht hhonest => ⟨?_, ?_, hfields t ht hhonest.fields, ?_⟩
  · rw [hg]
    exact ⟨rfl, rfl, rfl, rfl⟩
  · rw [hg]
  · rw [hg]
    exact hhonest.bases

theorem keeps_updateField {change : Field → Field} (hs : (promotingAt q i h).Inv s)
    (hchange : ∀ t f, s.get? h = some t → t.fields[j]? = some f → f.Throughout (FieldType.Honours s q i) →
      (change f).Throughout (FieldType.Honours s q i)) :
    (promotingAt q i h).conduct.Runs (updateField h j change) s fun _ _ => True := by
  refine keeps_updateFields hs (fun _ => rfl) fun t ht hfields f hf => ?_
  obtain ⟨n, hn⟩ := List.mem_iff_getElem?.mp hf
  rw [List.getElem?_modify, Option.map_eq_map, Option.map_eq_some_iff] at hn
  obtain ⟨f₀, hold, rfl⟩ := hn
  have hf₀ := hfields f₀ (List.mem_of_getElem? hold)
  split
  case isTrue heq =>
    subst heq
    exact hchange t f₀ ht hold hf₀
  case isFalse => exact hf₀

theorem keeps_updateRef {change : FieldType → FieldType} (hs : (promotingAt q i h).Inv s)
    (hchange : ∀ t, s.get? h = some t → t.RefAt j n fun ft => (change ft).Honours s q i) :
    (promotingAt q i h).conduct.Runs (updateRef h j n change) s fun _ _ => True := by
  refine keeps_updateField hs fun t f ht hf hthroughout => hthroughout.congr rfl rfl fun ft hft => ?_
  obtain ⟨m, hm⟩ := List.mem_iff_getElem?.mp hft
  rw [List.getElem?_modify, Option.map_eq_map, Option.map_eq_some_iff] at hm
  obtain ⟨ft₀, hold, rfl⟩ := hm
  split
  case isTrue heq =>
    subst heq
    exact hchange t ht f ft₀ hf hold
  case isFalse => exact hthroughout.types ft₀ (List.mem_of_getElem? hold)

/-- Inner types are taken out of the type that is worked on. -/
theorem keeps_takeOut {g : SchemaType → SchemaType} (p : SchemaType → Bool) (hs : (promotingAt q i h).Inv s)
    (ht : s.get? h = some t) (hg : Restated t (g t)) (hinner : (g t).inner = t.inner.filter p)
    (hfields : ∀ f ∈ (g t).fields, f.Throughout (FieldType.Honours s q i))
    (hbases : (g t).extensions = t.extensions) :
    (promotingAt q i h).conduct.Runs (do update h g; modify (·.setAside (t.inner.filter (!p ·)))) s
      fun _ _ => True := by
  obtain ⟨hknows, rfl⟩ := Store.knows_of_get? ht
  have hhonest := hs.1.honest t hknows
  have hpending : (g t).pending .flattening ⊆ t.pending .flattening := by
    rw [SchemaType.pending_eq, SchemaType.pending_eq t, hinner, hg.id, hg.status]
    refine List.append_subset.mpr ⟨List.subset_append_left _ _, fun k hk => ?_⟩
    obtain ⟨c, hc, hk⟩ := List.mem_flatMap.mp hk
    exact List.mem_append_right _ (List.mem_flatMap.mpr ⟨c, List.mem_of_mem_filter hc, hk⟩)
  obtain ⟨hs', hcarries, -⟩ := hs.1.setAside hknows p hg.id hg.qname hinner
    (hg.honest hhonest hpending hfields (hbases ▸ hhonest.bases)) hpending
  unfold Conduct.Runs
  rw [wp_bind, wp_update, wp_modify]
  exact ⟨⟨hs', hs.2.carries hcarries⟩, hcarries, trivial⟩

-- ---------------------------------------------------------------------------
-- Taking over references
-- ---------------------------------------------------------------------------

theorem begun_of_nested (ht : s.Knows t) (hbegun : t.pending .flattening = []) (hb : Nested b t) :
    s.Started b.id :=
  ⟨b, ht.within hb.within, rfl,
    pending_eq_nil_iff.mpr fun v hv => pending_eq_nil_iff.mp hbegun v (hv.trans hb.within)⟩

/-- What is borrowed from a type that has been begun comes with what is nested in the type alone. -/
theorem keeps_borrow (hfinder : Guides q i finder) (hs : (promotingAt q i h).Inv s) (hsource : s.Started source)
    (q' : QName) :
    (promotingAt q i h).conduct.Runs (borrow finder source h q') s fun _ s' =>
      ∀ t t', s.get? h = some t → s'.get? h = some t' → t'.fields = t.fields := by
  unfold borrow
  refine keeps_typeOf_bind hs hs.2 fun t ht hknows hid hbegun => ?_
  subst hid
  split
  · refine .pure hs fun u u' hu hu' => ?_
    obtain rfl := Option.some.inj (hu.symm.trans hu')
    rfl
  · obtain ⟨b, hb, rfl, hbegun'⟩ := hsource
    refine .bind (hfinder.findInner q' hs (hs.1.get? hb) hbegun') ?_
    rintro _ s hs - ⟨rfl, v, hv, rfl⟩
    refine keeps_typeOf_bind hs (begun_of_nested hb hbegun' hv) fun v' hv' hknows' hid' _ => ?_
    obtain rfl := hknows'.eq_of_id hs.1.whole (hb.within hv.within) hid'
    have hhonest := hs.1.honest t hknows
    have hcopies : ∀ x ∈ [(v'.clone s.nextHandle).1], ∀ w, Within w x → w.Honest s q i := by
      intro x hx w hw
      rw [List.mem_singleton.mp hx] at hw
      exact hs.1.honest_of_within_clone hb hbegun' hv hw
    have hrestated : Restated t { t with inner := t.inner ++ [(v'.clone s.nextHandle).1] } :=
      ⟨rfl, rfl, rfl, rfl⟩
    have hpending : ({ t with inner := t.inner ++ [(v'.clone s.nextHandle).1] } : SchemaType).pending
        .flattening ⊆ t.pending .flattening := by
      rw [SchemaType.pending_eq, SchemaType.pending_eq t, List.flatMap_append, List.flatMap_singleton,
        pending_clone hbegun' hv, List.append_nil]
      exact List.Subset.refl _
    have hnumbered : Numbered ([(v'.clone s.nextHandle).1].flatMap SchemaType.handles) s.nextHandle
        (v'.clone s.nextHandle).2 := by
      rw [List.flatMap_singleton]
      exact numbered_clone v' s.nextHandle
    obtain ⟨hs', hcarries, hknows''⟩ := hs.1.update
      (fun t => { t with inner := t.inner ++ [(v'.clone s.nextHandle).1] }) _ _ hknows rfl rfl rfl hnumbered
      (hrestated.honest hhonest hpending hhonest.fields hhonest.bases) hpending hcopies
    unfold Conduct.Runs
    rw [wp_bind, wp_modifyGet, wp_bind, wp_update, wp_pure]
    refine ⟨⟨hs', hs.2.carries hcarries⟩, hcarries, fun u u' hu hu' => ?_⟩
    obtain rfl := Option.some.inj (ht.symm.trans hu)
    obtain rfl := Option.some.inj ((hs'.get? hknows'').symm.trans hu')
    rfl

theorem keeps_refAt_bind {β : Type} {next : FieldType → Compile β} {Q : β → Store → Prop}
    (hnext : ∀ ft, (∀ t, s.get? h = some t → t.RefAt j n (· = ft)) →
      (promotingAt q i h).conduct.Runs (next ft) s Q) :
    (promotingAt q i h).conduct.Runs (refAt h j n >>= next) s Q := by
  unfold refAt
  rw [bind_assoc]
  refine fieldOf_bind fun t ht => ?_
  rw [pure_bind]
  refine hnext _ fun t' ht' f ft hf hft => ?_
  obtain rfl := Option.some.inj (ht.symm.trans ht')
  rw [hf, Option.getD_some, hft, Option.getD_some]

theorem keeps_bindCopies (hfinder : Guides q i finder) (hs : (promotingAt q i h).Inv s)
    (hsource : s.Started source) (places : List Nat) :
    (promotingAt q i h).conduct.Runs (bindCopies finder source h j places) s fun _ _ => True := by
  induction places generalizing s with
  | nil => exact .pure hs trivial
  | cons n places ih =>
    rw [bindCopies]
    refine keeps_refAt_bind fun ft hft => ?_
    split
    case isTrue hforward =>
      refine .bind (keeps_borrow hfinder hs hsource _) fun ref s₁ hs₁ hleads₁ hsame => ?_
      refine .bind (keeps_updateRef hs₁ fun t₁ ht₁ f ft₁ hf hft₁ => .of_forward ?_)
        fun _ s₂ hs₂ hleads₂ _ => ih hs₂ ((hsource.carries hleads₁).carries hleads₂)
      obtain ⟨t, ht, rfl, -⟩ := hs.2
      have hget := hs.1.get? ht
      obtain rfl := hft t hget f ft₁ (hsame t t₁ hget ht₁ ▸ hf) hft₁
      exact hforward
    case isFalse => exact ih hs hsource

theorem keeps_seeThrough (hfinder : Guides q i finder) (hs : (promotingAt q i h).Inv s)
    (hsource : s.Started source) :
    (promotingAt q i h).conduct.Runs (seeThrough finder source h j n) s fun _ _ => True := by
  unfold seeThrough
  refine fieldOf_bind fun b hb => ?_
  have htext : (b.fields[0]?.getD ({} : Field)).Throughout (FieldType.Honours s q i) := by
    cases hfield : b.fields[0]? with
    | none => exact Field.throughout_default
    | some f => exact (hs.1.honest b (Store.knows_of_get? hb).1).fields f (List.mem_of_getElem? hfield)
  refine .bind (keeps_updateField hs fun t f ht hf hthroughout => hthroughout.congr rfl rfl fun ft hft => ?_)
    fun _ s₁ hs₁ hleads₁ _ => ?_
  · obtain hft | hft := List.mem_append.mp hft
    · obtain hft | hft := List.mem_append.mp hft
      · exact hthroughout.types ft (List.mem_of_mem_take hft)
      · exact htext.types ft hft
    · exact hthroughout.types ft (List.mem_of_mem_drop hft)
  · have hsource₁ := hsource.carries hleads₁
    refine .bind (keeps_bindCopies hfinder hs₁ hsource₁ _) fun _ s₂ hs₂ hleads₂ _ => ?_
    refine fieldOf_bind fun b₂ _ => ?_
    refine .bind (keeps_updateField hs₂ fun t f ht hf hthroughout => ?_) fun _ s₃ hs₃ _ _ => .pure hs₃ trivial
    exact hthroughout.congr rfl rfl hthroughout.types

theorem keeps_dropInner (hs : (promotingAt q i h).Inv s) (k : Handle) :
    (promotingAt q i h).conduct.Runs (dropInner h k) s fun _ _ => True := by
  unfold dropInner
  refine typeOf_bind fun t ht => ?_
  have hgone : t.inner.filter (·.id == k) = t.inner.filter fun c => !(c.id != k) :=
    List.filter_congr fun c _ => by rw [bne, Bool.not_not]
  have hhonest := hs.1.honest t (Store.knows_of_get? ht).1
  rw [hgone]
  exact keeps_takeOut (fun c => c.id != k) hs ht ⟨rfl, rfl, rfl, rfl⟩ rfl hhonest.fields rfl

-- ---------------------------------------------------------------------------
-- Binding references
-- ---------------------------------------------------------------------------

theorem keeps_bindForward (hfinder : Guides q i finder) (hs : (promotingAt q i h).Inv s)
    (hft : ∀ t, s.get? h = some t → t.RefAt j n (· = ft)) (hforward : ft.forward = true) :
    (promotingAt q i h).conduct.Runs (bindForward finder h j n ft) s fun _ _ => True := by
  have hbind : ∀ k, (promotingAt q i h).conduct.Runs (updateRef h j n fun ft => { ft with reference := k }) s
      fun _ _ => True := by
    refine fun k => keeps_updateRef hs fun t ht f ft' hf hft' => .of_forward ?_
    obtain rfl := hft t ht f ft' hf hft'
    exact hforward
  unfold bindForward
  split
  · exact .bind (hbind h) fun _ s₁ hs₁ _ _ => .pure hs₁ trivial
  · obtain ⟨t, ht, rfl, hbegun⟩ := hs.2
    refine .bind (hfinder.findInner ft.qname hs (hs.1.get? ht) hbegun) ?_
    rintro _ s hs - ⟨rfl, v, hv, rfl⟩
    refine typeOf_bind fun u _ => ?_
    split
    · refine .bind (keeps_seeThrough hfinder hs (begun_of_nested ht hbegun hv)) fun _ s₁ hs₁ _ _ => ?_
      exact .bind (keeps_dropInner hs₁ v.id) fun _ s₂ hs₂ _ _ => .pure hs₂ trivial
    · exact .bind (hbind v.id) fun _ s₁ hs₁ _ _ => .pure hs₁ trivial

/-- A dependency is bound to what is preferred of the roots of its name, or to nothing any more. -/
theorem keeps_bindDependency (hfinder : Guides q i finder) (hs : (promotingAt q i h).Inv s)
    (hft : ∀ t, s.get? h = some t → t.RefAt j n (· = ft)) (hforward : ft.forward = false) :
    (promotingAt q i h).conduct.Runs (bindDependency finder h j n ft) s fun _ _ => True := by
  unfold bindDependency
  refine fieldOf_bind fun _ _ => ?_
  refine .bind (keeps_promotingAt hs.2 (hfinder.findPreferred _ _ hs.1)) fun r s₁ hs₁ _ hr => ?_
  obtain ⟨hr, hcarries⟩ := hr
  cases r with
  | none =>
    refine keeps_refAt_bind fun _ _ => typeOf_bind fun _ _ => fieldOf_bind fun _ _ => .get_bind ?_
    refine .bind (keeps_quiet (Q := fun _ _ => True) hs₁ rfl trivial) fun _ s₂ hs₂ _ _ => ?_
    refine .bind (keeps_updateRef hs₂ fun _ _ _ _ _ _ => .of_native rfl) fun _ s₃ hs₃ _ _ => .pure hs₃ trivial
  | some k =>
    obtain ⟨b, hb, rfl, hbq, hbegun⟩ := hr k rfl
    refine typeOf_bind fun u _ => ?_
    split
    · exact keeps_seeThrough hfinder hs₁ ⟨b, (Store.holds_of_mem_types hb).knows, rfl, hbegun⟩
    · refine .bind (keeps_updateRef hs₁ fun t₁ ht₁ f ft₁ hf hft₁ => ?_) fun _ s₂ hs₂ _ _ => .pure hs₂ trivial
      -- the dependency is still there
      obtain ⟨t, ht, rfl, -⟩ := hs.2
      have hget := hs.1.get? ht
      have hresembles := resembles_of_carries hs hs₁ hcarries hget ht₁
      obtain rfl := hresembles.refAt (hft t hget) hforward f ft₁ hf hft₁
      exact .of_root hb hbq rfl

theorem keeps_bindFrom (hfinder : Guides q i finder) (count n : Nat) (hs : (promotingAt q i h).Inv s) :
    (promotingAt q i h).conduct.Runs (bindFrom finder h j count n) s fun _ _ => True := by
  induction count generalizing s n with
  | zero => exact .pure hs trivial
  | succ count ih =>
    rw [bindFrom]
    refine keeps_refAt_bind fun ft hft => ?_
    split
    · refine .bind (keeps_updateRef hs fun _ _ _ _ _ _ => .of_native rfl) fun _ s₁ hs₁ _ _ => ?_
      split
      · refine .bind (keeps_updateField hs₁ fun t f _ _ hf => hf.congr rfl rfl hf.types) fun _ s₂ hs₂ _ _ => ?_
        exact ih _ hs₂
      · exact ih _ hs₁
    · split
      case isTrue hforward =>
        exact .bind (keeps_bindForward hfinder hs hft hforward) fun _ s₁ hs₁ _ _ => ih _ hs₁
      case isFalse hforward =>
        have hforward : ft.forward = false := Bool.eq_false_iff.mpr hforward
        exact .bind (keeps_bindDependency hfinder hs hft hforward) fun _ s₁ hs₁ _ _ => ih _ hs₁

theorem keeps_bindFields (hfinder : Guides q i finder) (places : List Nat) (hs : (promotingAt q i h).Inv s) :
    (promotingAt q i h).conduct.Runs (bindFields finder h places) s fun _ _ => True := by
  induction places generalizing s with
  | nil => exact .pure hs trivial
  | cons j places ih =>
    have hfield : ∀ {s}, (promotingAt q i h).Inv s → (promotingAt q i h).conduct.Runs (do
        bindFrom finder h j (← fieldOf h j).types.length 0
        updateField h j fun f => { f with types := distinctTypes f.types }
        bindFields finder h places) s fun _ _ => True := by
      intro s hs
      refine fieldOf_bind fun t _ => .bind (keeps_bindFrom hfinder _ 0 hs) fun _ s₁ hs₁ _ _ => ?_
      refine .bind (keeps_updateField hs₁ fun t f _ _ hf => ?_) fun _ s₂ hs₂ _ _ => ih hs₂
      exact hf.congr rfl rfl (Field.forall_distinctTypes hf.types)
    rw [bindFields]
    refine .get_bind ?_
    split
    · refine .bind (keeps_updateField hs fun t f _ _ hf => hf.congr rfl rfl hf.types) fun _ s₁ hs₁ _ _ => ?_
      exact hfield hs₁
    · exact hfield hs

theorem keeps_bindReferences (hfinder : Guides q i finder) (hs : (promotingAt q i h).Inv s) :
    (promotingAt q i h).conduct.Runs (bindReferences finder h) s fun _ _ => True :=
  typeOf_bind fun _ _ => keeps_bindFields hfinder _ hs

-- ---------------------------------------------------------------------------
-- Settling bases
-- ---------------------------------------------------------------------------

theorem keeps_dropBase (hs : (promotingAt q i h).Inv s) (n : Nat) :
    (promotingAt q i h).conduct.Runs (dropBase h n) s fun _ _ => True := by
  refine keeps_update hs fun t _ ht => ⟨⟨rfl, rfl, rfl, rfl⟩, rfl, ht.fields, fun e he => ?_⟩
  exact ht.bases e (List.mem_of_mem_eraseIdx he)

theorem keeps_borrowTypes (hfinder : Guides q i finder) (hs : (promotingAt q i h).Inv s)
    (hsource : s.Started source) (hf : f.Throughout (FieldType.Honours s q i)) :
    (promotingAt q i h).conduct.Runs (borrowTypes finder source h f) s fun f' s' =>
      f'.Throughout (FieldType.Honours s' q i) := by
  refine (Conduct.Runs.mapTypesM (C := (promotingAt q i h).conduct) (P := fun s ft => ft.Honours s q i)
    (J := (Store.Started · source)) ?_ ?_ f hs hsource (Field.throughout_iff.mp hf)).mono
    fun f' s' _ _ hf' => Field.throughout_iff.mpr hf'.2.1
  · exact fun ft hc hft => hft.mono (Store.Carries.roots hc)
  · intro ft s hs hsource hft
    unfold borrowType
    split
    case isTrue hforward =>
      refine .bind (keeps_borrow hfinder hs hsource _) fun k s₁ hs₁ hc _ => ?_
      exact .pure hs₁ ⟨hsource.carries hc, .of_forward hforward⟩
    case isFalse => exact .pure hs ⟨hsource, hft⟩

theorem keeps_copyFields (hfinder : Guides q i finder) (hs : (promotingAt q i h).Inv s)
    (hsource : s.Started source) (r : Restrictions) (taken : List String) (places : List Nat) :
    (promotingAt q i h).conduct.Runs (copyFields finder source h r taken places) s fun fs s' =>
      ∀ f ∈ fs, f.Throughout (FieldType.Honours s' q i) := by
  induction places generalizing s with
  | nil => exact .pure hs nofun
  | cons n places ih =>
    rw [copyFields]
    refine fieldOf_bind fun b hb => ?_
    have hf : (b.fields[n]?.getD ({} : Field)).Throughout (FieldType.Honours s q i) := by
      cases hfield : b.fields[n]? with
      | none => exact Field.throughout_default
      | some f => exact (hs.1.honest b (Store.knows_of_get? hb).1).fields f (List.mem_of_getElem? hfield)
    split
    · exact ih hs hsource
    · refine .bind (keeps_borrowTypes hfinder hs hsource (hf.congr rfl rfl hf.types)) fun f s₁ hs₁ hleads₁ hf => ?_
      refine .bind (ih hs₁ (hsource.carries hleads₁)) fun fs s₂ hs₂ hleads₂ hfs => .pure hs₂ ?_
      refine List.forall_mem_cons.mpr ⟨Field.throughout_mono hf fun ft hft => ?_, hfs⟩
      exact hft.mono (Store.Carries.roots hleads₂)

theorem keeps_copyBase (hfinder : Guides q i finder) (hs : (promotingAt q i h).Inv s)
    (hsource : s.Started source) (e : Extension) :
    (promotingAt q i h).conduct.Runs (copyBase finder source h e) s fun _ _ => True := by
  unfold copyBase
  refine typeOf_bind fun _ _ => typeOf_bind fun _ _ => ?_
  refine .bind (keeps_copyFields hfinder hs hsource _ _ _) fun copies s₁ hs₁ _ hcopies => ?_
  refine typeOf_bind fun b hb => keeps_update hs₁ fun t _ ht => ?_
  have hbase := hs₁.1.honest b (Store.knows_of_get? hb).1
  obtain ⟨added, hext, hadded, -⟩ := exists_addBases (fun _ => 0) { t with fields := copies ++ t.fields }
    b.extensions e.restrictions
  refine ⟨⟨?_, ?_, ?_, ?_⟩, ?_, fun f hf => ?_, fun a ha => ?_⟩
  · exact addBases_id _ _ _
  · exact addBases_qname _ _ _
  · exact addBases_status _ _ _
  · dsimp only
    rw [addBases_eq]
  · exact addBases_inner _ _ _
  · dsimp only at hf
    rw [addBases_fields] at hf
    exact Field.meets_append hcopies ht.fields f hf
  · dsimp only at ha
    rw [hext] at ha
    obtain ha | ha := List.mem_append.mp ha
    · exact ht.bases a ha
    · obtain ⟨c, hc, htype⟩ := hadded a ha
      have hbase := hbase.bases c hc
      exact ⟨htype ▸ hbase.forward, htype ▸ hbase.type⟩

theorem keeps_settleBase (hfinder : Guides q i finder) (hs : (promotingAt q i h).Inv s) {e : Extension}
    (he : ∀ t, s.get? h = some t → t.extensions[n]? = some e) :
    (promotingAt q i h).conduct.Runs (settleBase finder h n e) s fun _ _ => True := by
  obtain ⟨t₀, ht₀, rfl, hbegun₀⟩ := hs.2
  have hget₀ := hs.1.get? ht₀
  have hbase := (hs.1.honest t₀ ht₀).bases e (List.mem_of_getElem? (he t₀ hget₀))
  -- a base that is dissolved leaves something in the fields
  have hdissolve : ∀ {s₁} (g : SchemaType → SchemaType), (promotingAt q i t₀.id).Inv s₁ →
      (∀ t, g t = { t with fields := (g t).fields }) →
      (∀ s₂ t, Store.Carries (some t₀.id) s₁ s₂ → s₂.get? t₀.id = some t →
        (∀ f ∈ t.fields, f.Throughout (FieldType.Honours s₂ q i)) →
        ∀ f ∈ (g t).fields, f.Throughout (FieldType.Honours s₂ q i)) →
      (promotingAt q i t₀.id).conduct.Runs (do dropBase t₀.id n; update t₀.id g; pure false) s₁ fun _ _ => True := by
    intro s₁ g hs₁ hg hfields
    refine .bind (keeps_dropBase hs₁ n) fun _ s₂ hs₂ hleads₂ _ => ?_
    refine .bind (keeps_updateFields hs₂ hg fun t ht => hfields s₂ t hleads₂ ht) fun _ s₃ hs₃ _ _ => ?_
    exact .pure hs₃ trivial
  have hnone : ∀ {s : Store}, (∀ ft ∈ Field.allTypesOf [], FieldType.Honours s q i ft) := nofun
  unfold settleBase
  dsimp only
  split
  · refine hdissolve (·.dissolveNative e) hs (fun t => dissolveNative_eq t e) fun s₂ t hc _ hfields => ?_
    exact meets_dissolveNative hnone ⟨trivial, trivial⟩ hfields (hbase.type.mono hc.roots)
  refine .get_bind ?_
  split
  · refine .bind (keeps_dropBase hs n) fun _ s₁ hs₁ _ _ => typeOf_bind fun _ _ => ?_
    exact .bind (keeps_quiet (Q := fun _ _ => True) hs₁ rfl trivial) fun _ s₂ hs₂ _ _ => .pure hs₂ trivial
  refine .bind (keeps_promotingAt hs.2 (hfinder.findPreferred _ _ hs.1)) fun r s₁ hs₁ hleads₁ hr => ?_
  obtain ⟨hr, hcarries⟩ := hr
  cases r with
  | none =>
    refine .bind (keeps_dropBase hs₁ n) fun _ s₂ hs₂ _ _ => typeOf_bind fun _ _ => .get_bind ?_
    exact .bind (keeps_quiet (Q := fun _ _ => True) hs₂ rfl trivial) fun _ s₃ hs₃ _ _ => .pure hs₃ trivial
  | some k =>
    obtain ⟨b, hb, rfl, hbq, hbegun⟩ := hr k rfl
    have hknows := (Store.holds_of_mem_types hb).knows
    have hbfields := (hs₁.1.honest b hknows).fields
    have hgetb := hs₁.1.get? hknows
    refine typeOf_bind fun t ht => typeOf_bind fun b' hb' => ?_
    obtain rfl := Option.some.inj (hgetb.symm.trans hb')
    split
    · refine hdissolve (·.dissolveEnumeration b e) hs₁ (fun t => dissolveEnumeration_eq t b e)
        fun s₂ t hc _ hfields => ?_
      refine meets_dissolveEnumeration hnone ⟨trivial, trivial⟩ hfields (fun f hf => ?_) ?_
      · exact Field.throughout_mono (hbfields f hf) fun _ hft => hft.mono hc.roots
      · obtain ⟨b', hb', hid, hq⟩ := hc.roots b hb
        exact .of_root hb' hq hid.symm
    split
    · refine hdissolve (·.retypeMembers e.type) hs₁ (fun _ => rfl) fun s₂ t hc _ hfields => ?_
      exact meets_retypeMembers hfields ((hbase.type.mono hleads₁.roots).mono hc.roots)
    split
    · refine .bind (keeps_dropBase hs₁ n) fun _ s₂ hs₂ hleads₂ _ => ?_
      have hsource : s₂.Started b.id := Store.Started.carries ⟨b, hknows, rfl, hbegun⟩ hleads₂
      exact .bind (keeps_copyBase hfinder hs₂ hsource e) fun _ s₃ hs₃ _ _ => .pure hs₃ trivial
    split
    · exact .bind (keeps_dropBase hs₁ n) fun _ s₂ hs₂ _ _ => .pure hs₂ trivial
    · refine .bind (keeps_update hs₁ fun t ht hhonest => ⟨⟨rfl, rfl, rfl, rfl⟩, rfl, hhonest.fields,
        fun a ha => ?_⟩) fun _ s₂ hs₂ _ _ => .pure hs₂ trivial
      obtain ⟨m, hm⟩ := List.mem_iff_getElem?.mp ha
      rw [List.getElem?_modify, Option.map_eq_map, Option.map_eq_some_iff] at hm
      obtain ⟨a₀, hold, rfl⟩ := hm
      have ha₀ := hhonest.bases a₀ (List.mem_of_getElem? hold)
      split
      case isFalse => exact ha₀
      case isTrue heq =>
        -- the base is still there
        subst heq
        have hext := (resembles_of_carries hs hs₁ hcarries hget₀ ht).bases (hs.1.honest t₀ ht₀)
        obtain rfl : e = a₀ := Option.some.inj ((he t₀ hget₀).symm.trans (hext ▸ hold))
        exact ⟨ha₀.forward, .of_root hb hbq rfl⟩

theorem keeps_settleFrom (hfinder : Guides q i finder) (n : Nat) (hs : (promotingAt q i h).Inv s) :
    (promotingAt q i h).conduct.Runs (settleFrom finder h rounds n) s fun _ _ => True := by
  induction rounds generalizing s n with
  | zero => exact .throw trivial
  | succ rounds ih =>
    rw [settleFrom]
    refine typeOf_bind fun t ht => ?_
    split
    · exact .pure hs trivial
    case h_2 e he =>
      refine .bind (keeps_settleBase hfinder hs fun t' ht' => ?_) fun kept s₁ hs₁ _ _ => ih _ hs₁
      obtain rfl := Option.some.inj (ht.symm.trans ht')
      exact he

-- ---------------------------------------------------------------------------
-- Unions, inner types and substitutes
-- ---------------------------------------------------------------------------

theorem keeps_unionSources (hfinder : Guides q i finder) (hs : (promotingAt q i h).Inv s) (places : List Nat) :
    (promotingAt q i h).conduct.Runs (unionSources finder h places) s fun _ _ => True := by
  induction places generalizing s with
  | nil => exact .pure hs trivial
  | cons n places ih =>
    rw [unionSources]
    refine fieldOf_bind fun t ht => ?_
    dsimp only
    generalize (t.fields[0]?.getD ({} : Field)).types[n]?.getD {} = ft
    split
    · exact .pure hs trivial
    refine .ite_bind (.bind (Q := fun _ _ => True) ?_ fun r s₁ hs₁ _ _ => ?_)
    · split
      · obtain ⟨u, hu, hid, hbegun⟩ := hs.2
        rw [map_eq_pure_bind]
        refine .bind (hfinder.findInner ft.qname hs (hid ▸ hs.1.get? hu) hbegun) fun _ s₁ hs₁ _ _ => ?_
        exact .pure hs₁ trivial
      · exact (keeps_promotingAt hs.2 (hfinder.find _ _ hs.1)).mono fun _ _ _ _ _ => trivial
    · cases r with
      | none => exact .pure hs₁ trivial
      | some k =>
        refine typeOf_bind fun b _ => ?_
        split
        · exact .bind (ih hs₁) fun _ s₂ hs₂ _ _ => .pure hs₂ trivial
        · exact .pure hs₁ trivial

theorem keeps_mapM_typeOf (hs : (promotingAt q i h).Inv s) (ks : List Handle) :
    (promotingAt q i h).conduct.Runs (ks.mapM typeOf) s fun bs s' => s' = s ∧ ∀ b ∈ bs, s.Knows b := by
  induction ks with
  | nil => exact .pure hs ⟨rfl, nofun⟩
  | cons k ks ih =>
    rw [List.mapM_cons]
    refine typeOf_bind fun b hb => .bind ih ?_
    rintro bs s hs - ⟨rfl, hbs⟩
    exact .pure hs ⟨rfl, List.forall_mem_cons.mpr ⟨(Store.knows_of_get? hb).1, hbs⟩⟩

theorem keeps_flattenUnion (hfinder : Guides q i finder) (hs : (promotingAt q i h).Inv s) :
    (promotingAt q i h).conduct.Runs (flattenUnion finder h) s fun _ _ => True := by
  unfold flattenUnion
  refine typeOf_bind fun t _ => ?_
  cases t.union? with
  | none => exact .pure hs trivial
  | some union =>
    refine .bind (keeps_unionSources hfinder hs _) fun r s₁ hs₁ _ _ => ?_
    split
    · exact .pure hs₁ trivial
    · exact .pure hs₁ trivial
    case h_3 sources _ =>
      refine .bind (keeps_mapM_typeOf hs₁ sources) ?_
      rintro bs s hs - ⟨rfl, hbs⟩
      refine typeOf_bind fun t ht => ?_
      have hgone : t.inner.filter (fun c => sources.contains c.id) =
          t.inner.filter fun c => !(!sources.contains c.id) :=
        List.filter_congr fun c _ => (Bool.not_not _).symm
      rw [hgone]
      refine keeps_takeOut (fun c => !sources.contains c.id) hs ht ⟨rfl, rfl, rfl, rfl⟩ rfl ?_ rfl
      exact meets_unionMembers fun b hb => (hs.1.honest b (hbs b hb)).fields

theorem keeps_settleEnumeration (hfinder : Guides q i finder) (hs : (promotingAt q i h).Inv s) :
    (promotingAt q i h).conduct.Runs (settleEnumeration finder h) s fun _ _ => True := by
  unfold settleEnumeration
  refine .bind (keeps_updateFields hs (fun t => ?_) fun t _ hfields => meets_sortOutMembers hfields)
    fun _ s₁ hs₁ _ _ => keeps_flattenUnion hfinder hs₁
  unfold sortOutMembers
  split
  · rfl
  · cases t
    rfl

theorem keeps_promoteInner (hs : (promotingAt q i h).Inv s) :
    (promotingAt q i h).conduct.Runs (promoteInner h) s fun _ _ => True := by
  unfold promoteInner
  refine typeOf_bind fun t ht => .get_bind ?_
  obtain ⟨hknows, rfl⟩ := Store.knows_of_get? ht
  obtain ⟨hs', hcarries, -⟩ := hs.1.promote hknows s.config.output.unnestClasses
  unfold Conduct.Runs
  rw [wp_bind, wp_update, wp_modify]
  exact ⟨⟨hs', hs.2.carries hcarries⟩, hcarries, trivial⟩

theorem keeps_addSubstitutes (hs : (promotingAt q i h).Inv s) :
    (promotingAt q i h).conduct.Runs (addSubstitutes rounds h) s fun _ _ => True := by
  unfold addSubstitutes
  refine typeOf_bind fun t ht => .get_bind ?_
  split
  · exact .throw trivial
  case h_2 fields warnings hexpanded =>
    have hhonest := hs.1.honest t (Store.knows_of_get? ht).1
    have hfields : ∀ f ∈ fields, f.Throughout (FieldType.Honours s q i) := by
      refine meets_expandSubstitutes ⟨fun ft hft => hft, fun p hp _ _ _ _ => hs.1.substitutes p hp⟩ (by simp) ?_
        hexpanded
      intro d hd
      obtain ⟨f, hf, rfl⟩ := List.mem_map.mp hd
      exact hhonest.fields f hf
    refine .bind (keeps_updateFields hs (fun _ => rfl) fun _ _ _ => hfields) fun _ s₁ hs₁ _ _ => ?_
    exact .forM (J := fun _ => True) _ (fun d _ s hs _ => keeps_quiet hs rfl trivial) hs₁ trivial

/-- What is gathered before a sweep is bound to nothing, but then the name is that of a member of a group. -/
theorem keeps_prepareSubstitutes (hs : (promoting q i).Inv s) :
    (promoting q i).conduct.Runs prepareSubstitutes s fun _ _ => True := by
  have hmembers : ∀ p ∈ s.substitutions.1, p.2.Throughout (FieldType.Honours s q i) := by
    intro p hp
    obtain ⟨⟨head, t⟩, hmem, rfl⟩ := List.mem_map.mp hp
    obtain ⟨t', ht, hmem⟩ := List.mem_flatMap.mp (List.mem_of_mem_filter hmem)
    obtain ⟨head', hhead, heq⟩ := List.mem_map.mp hmem
    obtain ⟨rfl, rfl⟩ := Prod.mk.inj heq
    refine ⟨nofun, trivial, fun ft hft _ hq => ?_⟩
    obtain rfl : ft = .ofDependency t'.qname := List.mem_singleton.mp hft
    refine .inr ⟨rfl, t', ht, hq, fun hid => ?_⟩
    have hnone := (Store.Promoting.honest hs t' (Store.holds_of_mem_types ht).knows).heads hid
    exact absurd (hnone ▸ hhead) List.not_mem_nil
  unfold prepareSubstitutes
  refine .get_bind ?_
  dsimp only
  refine .bind (.forM (J := fun _ => True) _ (fun d _ s hs _ => keeps_quiet hs rfl trivial)
    hs trivial) fun _ s₁ hs₁ hleads₁ _ => ?_
  refine .modify (Store.Promoting.quiet hs₁ _ s₁.journal fun p hp => ?_) ?_ trivial
  · exact Field.throughout_mono (hmembers p hp) fun _ hft => hft.mono (Store.Carries.roots hleads₁)
  · exact ⟨fun r hr => ⟨r, hr, rfl, rfl⟩, fun u hu => ⟨u, hu, .refl _ u⟩⟩

-- ---------------------------------------------------------------------------
-- The step
-- ---------------------------------------------------------------------------

theorem keeps_flatten (hfinder : Guides q i finder) (place : String) (rounds : Nat) (hs : (promotingAt q i h).Inv s) :
    (promotingAt q i h).conduct.Runs (runPasses place rounds finder h Step.flatten.passes) s fun _ _ => True := by
  refine keeps_runPasses (J := fun _ => True) place (fun pass hpass s hs _ => ?_) hs trivial
  simp only [Step.flatten, List.mem_cons, List.not_mem_nil, or_false] at hpass
  obtain rfl | rfl | rfl | rfl | rfl | rfl | rfl | rfl | rfl | rfl := hpass
  · exact keeps_updateFields hs (fun _ => rfl) fun t _ hfields => meets_foldPaths hfields
  · exact keeps_settleFrom hfinder 0 hs
  · exact keeps_settleEnumeration hfinder hs
  · refine keeps_updateFields hs (fun t => ?_) fun t _ hfields => meets_groupRepetitions hfields
    unfold groupRepetitions
    split
    · cases t
      rfl
    · rfl
  · exact keeps_promoteInner hs
  · exact keeps_addSubstitutes hs
  · exact keeps_bindReferences hfinder hs
  · exact keeps_updateFields hs (fun _ => rfl) fun t _ hfields => meets_mergeFields hfields
  · refine keeps_updateFields hs (fun t => ?_) fun t _ hfields =>
      meets_collectMixed nofun trivial (.of_native rfl) hfields
    unfold collectMixed
    split
    · rfl
    · cases t
      rfl
  · refine .get_bind ?_
    rw [if_neg hs.1.wrapped]
    exact .pure hs trivial

/-- A type of which all that is nested in it has been begun gets a status that says that it has been begun
itself. -/
theorem promoting_setStatus (hs : s.Promoting q i) (ht : s.Knows t)
    (hinner : ∀ c ∈ t.inner, c.pending .flattening = []) (status : Status) (hstatus : ¬ status < .flattening) :
    (s.update t.id fun t => { t with status }).Promoting q i ∧
      Store.Carries (some t.id) s (s.update t.id fun t => { t with status }) ∧
      (s.update t.id fun t => { t with status }).Started t.id := by
  have hhonest := hs.honest t ht
  have hbegun : ({ t with status } : SchemaType).pending .flattening = [] := by
    rw [SchemaType.pending_eq, if_neg hstatus, List.nil_append, List.flatMap_eq_nil_iff]
    exact hinner
  obtain ⟨hs', hcarries, hknows⟩ := hs.update (fun t => { t with status }) s.nextHandle [] ht rfl rfl
    (List.append_nil _).symm (.nil _)
    ⟨hhonest.handle, fun _ => hbegun, hhonest.fields, hhonest.bases, hhonest.heads⟩
    (hbegun ▸ List.nil_subset _) fun x hx => absurd hx List.not_mem_nil
  exact ⟨hs', hcarries, _, hknows, rfl, hbegun⟩

/-- The work on a type that has not been begun, of which all that is nested in it has been. -/
theorem applies_flatten (hfinder : Guides q i finder) :
    (promoting q i).Applies .flattening (Step.flatten.apply rounds finder) := by
  intro s t hs ht _ hlt hinner
  have hs : s.Promoting q i := hs
  have hpending : t.pending .flattening ≠ [] := fun hnone => pending_eq_nil_iff.mp hnone t .self hlt
  obtain ⟨hs₁, hcarries₁, hbegun₁⟩ := promoting_setStatus hs ht hinner .flattening (by decide)
  unfold Conduct.Runs Step.apply
  rw [wp_bind, wp_update, wp_bind]
  refine wp_mono (keeps_flatten hfinder Step.flatten.name rounds (h := t.id) ⟨hs₁, hbegun₁⟩) ?_
    fun _ _ htrue => htrue
  rintro _ s₂ ⟨⟨hs₂, t₂, ht₂, hid, hbegun₂⟩, hcarries₂, -⟩
  rw [SchemaType.pending_eq, List.append_eq_nil_iff, List.flatMap_eq_nil_iff] at hbegun₂
  obtain ⟨hs₃, hcarries₃, t₃, ht₃, hid₃, hbegun₃⟩ :=
    promoting_setStatus hs₂ ht₂ hbegun₂.2 .flattened (by decide)
  rw [hid] at hs₃ hcarries₃ ht₃ hid₃
  rw [wp_update]
  refine ⟨hs₃, ((hcarries₁.trans hcarries₂).trans hcarries₃).finish hs.whole ht hpending, ?_⟩
  rintro ⟨u, hu, hlt, hid'⟩
  obtain rfl := ht₃.eq_of_id hs₃.whole hu (hid₃.trans hid'.symm)
  exact pending_eq_nil_iff.mp hbegun₃ t₃ .self hlt

theorem sweeps_flatten (q : QName) (i : Handle) : (promoting q i).Sweeps .flatten where
  prepare pass hpass s hs := by
    simp only [Step.flatten, List.mem_cons, List.not_mem_nil, or_false] at hpass
    -- of the passes, one gathers something
    obtain rfl | rfl | rfl | rfl | rfl | rfl | rfl | rfl | rfl | rfl := hpass
    case inr.inr.inr.inr.inr.inl => exact keeps_prepareSubstitutes hs
    all_goals exact .pure hs trivial
  process := by
    have hshrinks : (promoting q i).Shrinks Step.flatten.busy := shrinks_promoting q i
    exact hshrinks.works_processTree rfl fun _ _ hprocess => applies_flatten hprocess.guides

end Schemata.Upkeep

namespace Schemata

open Compile SchemaType

variable {s : Store} {p c t d : SchemaType}

/-- What flattening starts with: handles tell types apart, no type has been begun, and no base is a
reference forward. -/
structure Store.Unbegun (s : Store) : Prop where
  sound : s.Sound
  fresh : s.Fresh
  positive : ∀ h ∈ s.handles, 0 < h
  pending : ∀ u, s.Holds u → u.status < .flattening
  bases : ∀ u, s.Holds u → ∀ e ∈ u.extensions, e.type.forward = false

theorem Store.Fresh.holds (hs : s.Fresh) (ht : s.Knows t) : s.Holds t := by
  obtain ⟨r, hr, htr⟩ := ht
  rw [Store.stock, Store.entries, hs.aside, List.append_nil] at hr
  exact ⟨r, hr, htr⟩

/-- The name of an inner type once it is promoted is that of no root to which references dangle: what
depends on the name is unbound, and some root has the name. -/
def Store.NamesRoot (s : Store) (q : QName) : Prop :=
  ∀ u, s.Holds u → ∀ ft ∈ u.fieldTypes, ft.isDependency = true → ft.qname = q →
    ft.reference = 0 ∧ ∃ r ∈ s.types, r.qname = q

theorem Store.Unbegun.promoting (hs : s.Unbegun) (hwrapped : s.config.output.wrappedLists ≠ .unwrap)
    (hp : s.Holds p) (hc : c ∈ p.inner) (hheads : c.substitutions = []) {q : QName} (hq : s.NamesRoot q) :
    ({ s with memory := {} } : Store).Promoting q c.id := by
  have hwhole := hs.sound.whole hs.fresh
  have hinner : s.Knows c := hp.knows.within (.inner hc .self)
  have hmem : c.id ∈ s.handles := mem_handles_iff.mpr ⟨c, hs.fresh.holds hinner, rfl⟩
  have hbelow := hs.sound.below _ hmem
  have honours : ∀ u, s.Knows u → ∀ ft ∈ u.fieldTypes, ft.Honours { s with memory := {} } q c.id := by
    intro u hu ft hft hdependency hname
    obtain ⟨hzero, r, hr, hrq⟩ := hq u (hs.fresh.holds hu) ft hft hdependency hname
    refine .inr ⟨hzero, r, hr, hrq, fun hid => ?_⟩
    -- the inner type is no root
    obtain rfl := (Store.holds_of_mem_types hr).knows.eq_of_id hwhole hinner hid
    refine hwhole.not_nested ?_ hp.knows ⟨r, hc, .self⟩
    rw [Store.stock, Store.entries, List.map_append]
    exact List.mem_append_left _ hr
  constructor
  case whole => exact ⟨hwhole.keys, hwhole.keysBelow, hwhole.handles⟩
  case indexed => exact hs.sound.byName
  case wrapped => exact hwrapped
  case positive => exact Int.lt_trans (hs.positive _ hmem) hbelow
  case below => exact hbelow
  case substitutes => exact fun p hp => absurd hp List.not_mem_nil
  case honest =>
    intro u (hu : s.Knows u)
    have hheld := hs.fresh.holds hu
    have hpending := hs.pending u hheld
    constructor
    case handle => exact Int.ne_of_gt (hs.positive _ (mem_handles_iff.mpr ⟨u, hheld, rfl⟩))
    case begun => exact fun hbegun => absurd hpending hbegun
    case fields =>
      refine fun f hf => Field.throughout_iff.mpr fun ft hft => honours u hu ft ?_
      exact List.mem_append_left _ (List.mem_flatMap.mpr ⟨f, hf, hft⟩)
    case bases =>
      refine fun e he => ⟨hs.bases u hheld e he, honours u hu e.type ?_⟩
      exact List.mem_append_right _ (List.mem_map_of_mem he)
    case heads =>
      intro hid
      obtain rfl := hu.eq_of_id hwhole hinner hid
      exact hheads

/-- An inner type is a root under its new name, and the references of fields that lead to it are
dependencies that are bound to it. -/
structure Store.Promoted (s : Store) (t c : SchemaType) : Prop where
  root : ∃ r ∈ s.types, r.id = c.id ∧ r.qname = t.promotedName c
  fields : ∃ t' g, s.Knows t' ∧ t'.id = t.id ∧ t'.fields = t.fields.map (Field.mapTypes g) ∧
    ∀ ft : FieldType, ft.LeadsTo c → g ft = ft.bindTo c (t.promotedName c)

theorem wp_promoteInner (hs : s.Whole) (hzero : ∀ u, s.Knows u → u.id ≠ 0) (ht : s.Knows t)
    (hdiscernible : t.Discernible) (hc : c ∈ t.inner)
    (hall : (s.config.output.unnestClasses || c.isEnumeration) = true) :
    wp (promoteInner t.id) (fun _ s' => s'.Promoted t c) (fun _ _ => False) s := by
  obtain ⟨hex, hnew⟩ := hs.exchanges_promote ht (fun u hu => hzero u (ht.within hu)) s.config.output.unnestClasses
  unfold promoteInner
  rw [wp_bind, wp_typeOf ((Store.get?_eq_some_iff hs).mpr ⟨ht, rfl⟩), wp_bind, wp_get, wp_bind, wp_update,
    wp_modify]
  constructor
  case root =>
    refine ⟨_, hnew _ (mem_promote_iff.mpr ⟨c, hc, hall, rfl⟩), ?_, qname_promoted_rewire _⟩
    exact (rewired_promoted t c).id
  case fields =>
    refine ⟨_, t.divert _, hex.knows_inside hs ht List.mem_cons_self .self, hex.id, t.fields_promote _, ?_⟩
    exact fun ft hft => hdiscernible.divert hc hall hft

/-- An inner type that is promoted becomes a root under its new name, and all references of fields that
lead forward to it become dependencies that are bound to it. When flattening has ended without a failure,
dependencies on the name are still bound to it, in whatever type, unless another root has the name as well:
then they may be bound to that one instead, since they are looked up again by the name. -/
theorem flatten_keeps_promoted (hs : s.Unbegun) (hwrapped : s.config.output.wrappedLists ≠ .unwrap)
    (hp : s.Holds p) (hc : c ∈ p.inner) (hheads : c.substitutions = [])
    (hname : s.NamesRoot (p.promotedName c)) (cancelled : Bool) :
    (∀ ⦃s₁ t d⦄, s₁.Whole → (∀ u, s₁.Knows u → u.id ≠ 0) → s₁.Knows t → t.Discernible → d ∈ t.inner →
      (s₁.config.output.unnestClasses || d.isEnumeration) = true →
      wp (promoteInner t.id) (fun _ s₂ => s₂.Promoted t d) (fun _ _ => False) s₁) ∧
    wp (Step.flatten.run cancelled)
      (fun _ s' =>
        (∃ p', s'.Knows p' ∧ p'.id = p.id) ∧
        ∀ u, s'.Knows u → ∀ ft ∈ u.fieldTypes, ft.isDependency = true → ft.qname = p.promotedName c →
          ft.reference = c.id ∨
          ∃ r ∈ s'.types, r.qname = p.promotedName c ∧ r.id ≠ c.id ∧
            (ft.reference = r.id ∨ ft.reference = 0))
      (fun _ _ => True) s := by
  refine ⟨fun s₁ t d hs₁ hzero ht hdiscernible hd hall => wp_promoteInner hs₁ hzero ht hdiscernible hd hall, ?_⟩
  have hstart := hs.promoting hwrapped hp hc hheads hname
  rw [← wp_run_forget]
  refine wp_mono ((Upkeep.sweeps_flatten _ _).run_keeps cancelled hstart trivial) ?_ fun _ _ htrue => htrue
  rintro _ s' ⟨hs', hcarries, -⟩
  have hs' : s'.Promoting (p.promotedName c) c.id := hs'
  have hcarries : Store.Carries none { s with memory := {} } s' := hcarries
  obtain ⟨p', hp', hcontinues⟩ := hcarries.types p hp.knows
  refine ⟨⟨p', hp', hcontinues.id⟩, fun u hu ft hft hdependency hq => ?_⟩
  have hhonours : ft.Honours s' (p.promotedName c) c.id := by
    have hhonest := hs'.honest u hu
    obtain hft | hft := List.mem_append.mp hft
    · obtain ⟨f, hf, hft⟩ := List.mem_flatMap.mp hft
      exact Field.throughout_iff.mp (hhonest.fields f hf) ft hft
    · obtain ⟨e, he, rfl⟩ := List.mem_map.mp hft
      exact (hhonest.bases e he).type
  obtain ⟨r, hr, hrq, hbound⟩ | ⟨hzero, r, hr, hrq, hne⟩ := hhonours hdependency hq
  · by_cases hid : r.id = c.id
    · exact .inl (hbound.symm.trans hid)
    · exact .inr ⟨r, hr, hrq, hid, .inl hbound.symm⟩
  · exact .inr ⟨r, hr, hrq, hne, .inr hzero⟩

namespace Namesake

/-- An enumeration with one member. -/
def values (id : Handle) (name : String) : SchemaType :=
  { id, qname := ⟨"urn:t", name⟩, tag := .simpleType
    fields := [{ tag := .enumeration, name := "x", types := [.ofNative Native.string] }] }

/-- A record with an enumeration nested in it that its field refers to. -/
def owner (id inner : Handle) : SchemaType :=
  { id, qname := ⟨"urn:t", "P"⟩, tag := .complexType
    fields := [{ tag := .element, name := "a", types := [.ofForward ⟨"urn:t", "I"⟩ 0] }]
    inner := [values inner "I"] }

/-- What the fields of a root refer to. -/
def references (s : Store) (h : Handle) : List (QName × Handle) :=
  (s.types.filter (·.id == h)).flatMap fun t =>
    t.fields.flatMap fun f => f.types.map fun ft => (ft.qname, ft.reference)

/-- The record alone. -/
def store : Store :=
  ({} : Store).insertAll [owner 0 0]

theorem owner_keeps_promoted :
    (store.Unbegun ∧ store.config.output.wrappedLists ≠ .unwrap ∧ store.Holds (owner 1 2) ∧
      (values 2 "I").substitutions = [] ∧ store.NamesRoot ⟨"urn:t", "P_I"⟩) ∧
    wp (Step.flatten.run false) (fun _ s' => references s' 1 = [(⟨"urn:t", "P_I"⟩, 2)]) (fun _ _ => False) store ∧
    wp (Step.flatten.run false)
      (fun _ s' =>
        (∃ p', s'.Knows p' ∧ p'.id = 1) ∧
        ∀ u, s'.Knows u → ∀ ft ∈ u.fieldTypes, ft.isDependency = true → ft.qname = ⟨"urn:t", "P_I"⟩ →
          ft.reference = 2 ∨
          ∃ r ∈ s'.types, r.qname = ⟨"urn:t", "P_I"⟩ ∧ r.id ≠ 2 ∧ (ft.reference = r.id ∨ ft.reference = 0))
      (fun _ _ => True) store := by
  have hroots : store.types = [owner 1 2] := rfl
  have hunbegun : store.Unbegun := by
    refine ⟨.insertAll (.empty {}) (.empty {}) (by decide), (Store.Fresh.empty {}).insertAll _,
      by decide +kernel, ?_, ?_⟩
    all_goals
      simp only [Store.holds_iff_mem_walkAll]
      decide +kernel
  have hheld : store.Holds (owner 1 2) := Store.holds_of_mem_types (hroots ▸ List.mem_singleton_self _)
  have hwrapped : store.config.output.wrappedLists ≠ .unwrap := by decide +kernel
  have hname : store.NamesRoot ⟨"urn:t", "P_I"⟩ := by
    unfold Store.NamesRoot
    simp only [Store.holds_iff_mem_walkAll]
    decide +kernel
  refine ⟨⟨hunbegun, hwrapped, hheld, rfl, hname⟩, by decide +kernel, ?_⟩
  exact (flatten_keeps_promoted hunbegun hwrapped hheld (List.mem_singleton_self (values 2 "I")) rfl hname false).2

/-- The record after an enumeration that has the name already that the nested one is given. -/
def shadowed : Store :=
  ({} : Store).insertAll [values 0 "P_I", owner 0 0]

/-- The nested enumeration is promoted, but the field of the record is bound to the other one. -/
theorem owner_refers_to_namesake :
    shadowed.types = [values 1 "P_I", owner 2 3] ∧
    wp (Step.flatten.run false)
      (fun _ s' => s'.types.map (fun t => (t.qname.name, t.id)) = [("P_I", 1), ("P", 2), ("P_I", 3)] ∧
        references s' 2 = [(⟨"urn:t", "P_I"⟩, 1)])
      (fun _ _ => False) shadowed :=
  ⟨rfl, by decide +kernel⟩

end Namesake

end Schemata
