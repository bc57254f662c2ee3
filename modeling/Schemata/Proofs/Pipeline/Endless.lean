import Schemata.Proofs.Binding.Flattened
import Schemata.Proofs.Pipeline.Termination

/-!
# Bases that are settled without end

A type that has to copy its bases takes over the bases of a base. When these are found as they are,
because they are being worked on, and one of them leads back to itself, there is always another base to
settle: `Caught` describes such a type, and no number of rounds is enough for it. A type comes into this
state while a base that is its own base waits for the base before it.
-/

namespace Schemata

open Compile SchemaType Store

variable {roots : List Handle} {s : Store} {t b : SchemaType} {h : Handle} {q : QName} {names live : List QName}
  {e : Extension} {post : List Extension} {n : Nat} {process : Handle → Compile Unit}

-- ---------------------------------------------------------------------------
-- Names that lead nowhere
-- ---------------------------------------------------------------------------

/-- Names that do not lead to a type are not found to do so. -/
theorem Store.basesLead_eq_false {V : QName → Prop}
    (hV : ∀ q, V q → ∀ b, s.preferred? q .complexType = some b →
      b.id ≠ h ∧ ∀ e ∈ b.extensions, e.type.native = false → V e.type.qname)
    (steps : Nat) (queue seen : List QName) (hqueue : ∀ q ∈ queue, V q) :
    s.basesLead h steps queue seen = false := by
  induction steps generalizing queue seen with
  | zero => cases queue <;> rfl
  | succ steps ih =>
    cases queue with
    | nil => rfl
    | cons q queue =>
      obtain ⟨hq, hqueue⟩ := List.forall_mem_cons.mp hqueue
      rw [basesLead]
      split
      · exact ih queue seen hqueue
      · cases hfound : s.preferred? q .complexType with
        | none => exact ih queue _ hqueue
        | some b =>
          obtain ⟨hne, hbases⟩ := hV q hq b hfound
          simp only [Bool.or_eq_false_iff, beq_eq_false_iff_ne]
          refine ⟨hne, ih _ _ fun q' hq' => ?_⟩
          obtain hq' | hq' := List.mem_append.mp hq'
          · exact hqueue q' hq'
          · obtain ⟨e, he, rfl⟩ := List.mem_map.mp hq'
            obtain ⟨he, hnative⟩ := List.mem_filter.mp he
            exact hbases e he (by simpa using hnative)

-- ---------------------------------------------------------------------------
-- A type that is caught
-- ---------------------------------------------------------------------------

/-- A base with one of the names. -/
structure Extension.Among (names : List QName) (e : Extension) : Prop where
  native : e.type.native = false
  dependency : e.type.qname.isNative = false
  name : e.type.qname ∈ names

instance : Decidable (e.Among names) :=
  decidable_of_iff (e.type.native = false ∧ e.type.qname.isNative = false ∧ e.type.qname ∈ names)
    ⟨fun ⟨hnative, hdependency, hname⟩ => ⟨hnative, hdependency, hname⟩,
      fun he => ⟨he.native, he.dependency, he.name⟩⟩

/-- A record that has been begun, with bases among the names; if its name is one of `live`, so is that of
a base. -/
structure SchemaType.Recurs (names live : List QName) (q : QName) (b : SchemaType) : Prop where
  begun : ¬ b.status < .flattening
  complex : b.isComplex = true
  record : b.isEnumeration = false
  fields : ∀ f ∈ b.fields, f.choices = [] ∧ ∀ ft ∈ f.types, ft.forward = false
  bases : ∀ c ∈ b.extensions, c.Among names
  recurs : q ∈ live → ∃ c ∈ b.extensions, c.type.qname ∈ live

instance : Decidable (b.Recurs names live q) :=
  decidable_of_iff
    (¬ b.status < .flattening ∧ b.isComplex = true ∧ b.isEnumeration = false ∧
      (∀ f ∈ b.fields, f.choices = [] ∧ ∀ ft ∈ f.types, ft.forward = false) ∧
      (∀ c ∈ b.extensions, c.Among names) ∧ (q ∈ live → ∃ c ∈ b.extensions, c.type.qname ∈ live))
    ⟨fun ⟨hbegun, hcomplex, hrecord, hfields, hbases, hrecurs⟩ =>
        ⟨hbegun, hcomplex, hrecord, hfields, hbases, hrecurs⟩,
      fun hb => ⟨hb.begun, hb.complex, hb.record, hb.fields, hb.bases, hb.recurs⟩⟩

/-- A type that ends with a wildcard, with bases that recur. -/
structure Caught (roots : List Handle) (names live : List QName) (h : Handle) (s : Store) (t : SchemaType) : Prop where
  sound : s.Sound
  flat : s.Flat
  handles : s.types.map (·.id) = roots
  mem : t ∈ s.types
  id : t.id = h
  suffix : t.hasSuffixField = true
  bases : ∀ e ∈ t.extensions, e.Among names
  recurs : ∃ e ∈ t.extensions, e.type.qname ∈ live
  sources : ∀ q ∈ names, ∃ b, s.preferred? q .complexType = some b ∧ b.id ≠ h ∧ b.Recurs names live q

theorem SchemaType.exists_mem_addBases (t : SchemaType) (bases : List Extension) (r : Restrictions)
    {c : Extension} (hc : c ∈ bases) :
    ∃ a ∈ (t.addBases bases r).extensions, a.type.qname = c.type.qname := by
  have hkeeps : ∀ (t : SchemaType) (bases : List Extension), t.extensions ⊆ (t.addBases bases r).extensions := by
    intro t bases
    obtain ⟨added, hext, -⟩ := exists_addBases (fun _ => 0) t bases r
    exact hext ▸ List.subset_append_left _ _
  induction bases generalizing t with
  | nil => exact absurd hc List.not_mem_nil
  | cons b bases ih =>
    obtain rfl | hc := List.mem_cons.mp hc
    · rw [addBases, List.foldl_cons]
      split
      case isTrue hany =>
        obtain ⟨a, ha, hname⟩ := List.any_eq_true.mp hany
        exact ⟨a, hkeeps t bases ha, beq_iff_eq.mp hname⟩
      case isFalse =>
        refine ⟨{ c with restrictions := c.restrictions.merge r }, hkeeps _ bases ?_, rfl⟩
        exact List.mem_append_right _ (List.mem_singleton_self _)
    · rw [addBases, List.foldl_cons]
      exact ih _ hc

theorem SchemaType.hasSuffixField_append (ht : t.hasSuffixField = true) (copies : List Field)
    (hu : b.fields = copies ++ t.fields) : b.hasSuffixField = true := by
  unfold hasSuffixField at *
  rw [hu, List.getLast?_append]
  cases hlast : t.fields.getLast? with
  | none => simp [hlast] at ht
  | some f => simpa [hlast] using ht

/-- Fields without forward references are copied as they are. -/
theorem wp_copyFields {finder : Finder} {source : Handle} (hb : s.get? source = some b)
    (hfields : ∀ f ∈ b.fields, f.choices = [] ∧ ∀ ft ∈ f.types, ft.forward = false) (r : Restrictions)
    (taken : List String) (places : List Nat) :
    wp (copyFields finder source h r taken places) (fun _ s' => s' = s) (fun _ _ => False) s := by
  have hborrow : ∀ f : Field, f.choices = [] → (∀ ft ∈ f.types, ft.forward = false) →
      borrowTypes finder source h f = pure f := by
    intro f hchoices htypes
    refine borrowTypes_eq (R := fun _ _ => True) (X := fun _ => True) (q := b.qname)
      ⟨hchoices, fun _ => trivial, fun ft hft => ⟨htypes ft hft, fun _ => .single trivial⟩⟩ source h
  induction places with
  | nil =>
    rw [copyFields, wp_pure]
  | cons i places ih =>
    unfold copyFields fieldOf
    simp only [wp_bind, wp_typeOf hb, wp_pure]
    split
    · exact ih
    · have hf : (b.fields[i]?.getD {}).choices = [] ∧
          ∀ ft ∈ (b.fields[i]?.getD {}).types, ft.forward = false := by
        cases hfield : b.fields[i]? with
        | none => exact ⟨rfl, by simp⟩
        | some f => exact hfields f (List.mem_of_getElem? hfield)
      rw [wp_bind, hborrow (Field.mergeFacets _ r) hf.1 hf.2, wp_pure, wp_bind]
      refine wp_mono ih ?_ fun _ _ hfalse => hfalse
      rintro copies _ rfl
      exact wp_pure.mpr rfl

namespace Caught

theorem get? (ht : Caught roots names live h s t) : s.get? h = some t := by
  rw [← ht.id]
  exact ht.sound.get?_root ht.mem

theorem leadsTo_eq_false (ht : Caught roots names live h s t) (hq : q ∈ names) : s.leadsTo q h = false := by
  refine basesLead_eq_false (V := (· ∈ names)) (fun q hq b hfound => ?_) _ _ _ (by simpa using hq)
  obtain ⟨b', hfound', hne, hb⟩ := ht.sources q hq
  obtain rfl := Option.some.inj (hfound'.symm.trans hfound)
  exact ⟨hne, fun e he _ => (hb.bases e he).name⟩

/-- A change of the type, after which it still has a base that recurs. -/
theorem update (ht : Caught roots names live h s t) {g : SchemaType → SchemaType} (halike : Alike t (g t))
    (hsuffix : (g t).hasSuffixField = true) (hbases : ∀ e ∈ (g t).extensions, e.Among names)
    (hrecurs : ∃ e ∈ (g t).extensions, e.type.qname ∈ live) : Caught roots names live h (s.update h g) (g t) := by
  obtain rfl := ht.id
  have hmem : ∀ {u}, u ∈ (s.update t.id g).types ↔ u = g t ∨ u ∈ s.types ∧ u.id ≠ t.id :=
    ht.flat.mem_update ht.sound ht.mem
  have hsound : (s.update t.id g).Sound := ht.sound.update_alike fun u hu hid => by
    rw [ht.sound.eq_of_id (ht.flat.holds_iff.mp hu) ht.mem hid]
    exact halike
  have houtline := outline_update_alike ht.sound ht.mem halike
  refine ⟨hsound, fun u hu => ?_, ?_, hmem.mpr (.inl rfl), halike.id, hsuffix, hbases, hrecurs, fun q hq => ?_⟩
  · obtain rfl | ⟨hu, -⟩ := hmem.mp hu
    · exact halike.inner.trans (ht.flat t ht.mem)
    · exact ht.flat u hu
  · rw [map_id_of_outline houtline, ht.handles]
  · obtain ⟨b, hfound, hne, hb⟩ := ht.sources q hq
    have hid := ht.sound.preferred?_id hsound houtline q .complexType
    rw [hfound, Option.map_some, Option.map_eq_some_iff] at hid
    obtain ⟨b', hfound', hid⟩ := hid
    -- the type that is preferred has not changed
    obtain rfl | ⟨hb', -⟩ := hmem.mp (hsound.preferred? hfound').1
    · exact absurd (hid.symm.trans halike.id) hne
    · obtain rfl := ht.sound.eq_of_id hb' (ht.sound.preferred? hfound).1 hid
      exact ⟨b', hfound', hne, hb⟩

/-- The base is copied, and there is another one that recurs. -/
theorem absorb (ht : Caught roots names live h s t) (hext : t.extensions = e :: post)
    (hb : b.Recurs names live e.type.qname) (copies : List Field) (r : Restrictions) :
    ∃ t', Caught roots names live h ((s.update h (·.withoutBase 0)).update h (·.absorb copies b r)) t' := by
  have hrest : (t.withoutBase 0).extensions = post := by
    rw [withoutBase, hext, List.eraseIdx_cons_zero]
  obtain ⟨added, haddedext, hadded, -⟩ := exists_addBases (fun _ => 0)
    { t.withoutBase 0 with fields := copies ++ t.fields } b.extensions r
  have hbases : ((t.withoutBase 0).absorb copies b r).extensions = post ++ added := by
    rw [← hrest]
    exact haddedext
  have halike : Alike t ((t.withoutBase 0).absorb copies b r) :=
    ⟨addBases_id _ _ _, addBases_qname _ _ _, addBases_tag _ _ _, addBases_inner _ _ _⟩
  rw [update_update (f := (·.withoutBase 0)) fun _ => rfl]
  refine ⟨_, ht.update (g := fun t => (t.withoutBase 0).absorb copies b r) halike ?_ ?_ ?_⟩
  · exact hasSuffixField_append ht.suffix copies (addBases_fields _ _ _)
  · intro a ha
    rw [hbases] at ha
    obtain ha | ha := List.mem_append.mp ha
    · exact ht.bases a (hext ▸ List.mem_cons_of_mem _ ha)
    · obtain ⟨c, hc, htype⟩ := hadded a ha
      obtain ⟨hnative, hdependency, hname⟩ := hb.bases c hc
      rw [htype] at hnative hdependency hname
      exact ⟨hnative, hdependency, hname⟩
  · obtain ⟨a, ha, hlive⟩ := ht.recurs
    rw [hext] at ha
    obtain rfl | ha := List.mem_cons.mp ha
    · obtain ⟨c, hc, hclive⟩ := hb.recurs hlive
      obtain ⟨a', ha', hname⟩ := exists_mem_addBases
        { t.withoutBase 0 with fields := copies ++ t.fields } b.extensions r hc
      exact ⟨a', ha', hname ▸ hclive⟩
    · exact ⟨a, hbases ▸ List.mem_append_left _ ha, hlive⟩

theorem wp_settleBase (ht : Caught roots names live h s t) (hext : t.extensions = e :: post) :
    wp (settleBase (.processing .flattening (n + 1) process) h 0 e)
      (fun kept s' => kept = false ∧ ∃ t', Caught roots names live h s' t') (fun _ _ => False) s := by
  have hamong := ht.bases e (hext ▸ List.mem_cons_self)
  obtain ⟨b, hfound, hne, hb⟩ := ht.sources _ hamong.name
  have hbmem := (ht.sound.preferred? hfound).1
  -- the base is taken off before it is copied
  have hmem₁ : ∀ {u}, u ∈ (s.update h (·.withoutBase 0)).types ↔
      u = t.withoutBase 0 ∨ u ∈ s.types ∧ u.id ≠ h := by
    rw [← ht.id]
    exact ht.flat.mem_update ht.sound ht.mem
  have hsound₁ : (s.update h (·.withoutBase 0)).Sound :=
    ht.sound.update_alike fun _ _ _ => ⟨rfl, rfl, rfl, rfl⟩
  have hget₁ : (s.update h (·.withoutBase 0)).get? h = some (t.withoutBase 0) :=
    ht.id ▸ hsound₁.get?_root (hmem₁.mpr (.inl rfl))
  have hgetb₁ := hsound₁.get?_root (hmem₁.mpr (.inr ⟨hbmem, hne⟩))
  have hcopied : wp (copyBase (.processing .flattening (n + 1) process) b.id h e)
      (fun _ s' => ∃ t', Caught roots names live h s' t') (fun _ _ => False) (s.update h (·.withoutBase 0)) := by
    unfold copyBase
    rw [wp_bind, wp_typeOf hget₁, wp_bind, wp_typeOf hgetb₁, wp_bind]
    refine wp_mono (wp_copyFields hgetb₁ hb.fields _ _ _) ?_ fun _ _ hfalse => hfalse
    rintro copies _ rfl
    rw [wp_bind, wp_typeOf hgetb₁, wp_update]
    exact ht.absorb hext hb copies e.restrictions
  have hnative : ¬ (e.type.native || e.type.qname.isNative) = true := by
    simp [hamong.native, hamong.dependency]
  have hcopy : (!b.isComplex || t.mustCopy b || decide (t.fateOf b = .copy)) = true := by
    simp [mustCopy, ht.suffix]
  have hretype : ¬ (!b.isComplex && t.isEnumeration) = true := by
    simp [hb.complex]
  unfold settleBase
  simp only [if_neg hnative, wp_bind, wp_get, ht.leadsTo_eq_false hamong.name, Bool.false_eq_true, if_false]
  refine wp_findPreferred n hfound (fun hlt => absurd hlt hb.begun) fun _ => ?_
  simp only [wp_bind, wp_typeOf ht.get?, wp_typeOf (ht.sound.get?_root hbmem), hb.record,
    Bool.false_eq_true, if_false, if_neg hretype, if_pos hcopy]
  unfold dropBase
  rw [wp_update, wp_bind]
  refine wp_mono hcopied (fun _ s' hcaught => wp_pure.mpr ⟨rfl, hcaught⟩) fun _ _ hfalse => hfalse

/-- However many rounds there are, the loop over the bases exceeds them. -/
theorem settleFrom_exceeds (ht : Caught roots names live h s t) (rounds : Nat) :
    Exceeds roots (settleFrom (.processing .flattening (n + 1) process) h rounds 0) s := by
  induction rounds generalizing s t with
  | zero =>
    refine wp_throw.mpr ⟨rfl, fun k hk => ?_⟩
    rw [← ht.handles] at hk
    obtain ⟨u, hu, rfl⟩ := List.mem_map.mp hk
    exact ⟨u, ht.sound.get?_root hu⟩
  | succ rounds ih =>
    obtain ⟨e, post, hext⟩ : ∃ e post, t.extensions = e :: post := by
      obtain ⟨e, he, -⟩ := ht.recurs
      exact List.exists_cons_of_ne_nil (List.ne_nil_of_mem he)
    rw [settleFrom]
    refine .typeOf_bind ht.get? ?_
    simp only [hext, List.getElem?_cons_zero]
    refine .bind (wp_mono (ht.wp_settleBase hext) ?_ fun _ _ hfalse => hfalse)
    rintro _ s' ⟨rfl, t', ht'⟩
    exact ih ht'

end Caught

-- ---------------------------------------------------------------------------
-- A store that is flattened without end
-- ---------------------------------------------------------------------------

/-- A store by its types, in which nothing is nested. Nothing is configured, and there are no substitution
groups. -/
structure Store.Lists (ts : List SchemaType) (s : Store) : Prop where
  sound : s.Sound
  flat : s.Flat
  types : s.types = ts
  substitutes : s.memory.substitutes = []
  config : s.config = {}

namespace Store.Lists

variable {ts ts' : List SchemaType} {s : Store} {t : SchemaType} {h : Handle} {g : SchemaType → SchemaType}

theorem get? (hs : s.Lists ts) (i : Nat) (ht : ts[i]? = some t) (hid : t.id = h) : s.get? h = some t :=
  hid ▸ hs.sound.get?_root (hs.types.symm ▸ List.mem_of_getElem? ht)

theorem preferred? (hs : s.Lists ts) (q : QName) (tag : Tag) : s.preferred? q tag =
    (preferences tag).findSome? fun c => ts.find? fun t => t.qname == q && c t := by
  have hlookup : s.lookup? q = fun c => ts.find? fun t => t.qname == q && c t := by
    funext c
    rw [hs.sound.lookup?_eq, hs.types]
  rw [Store.preferred?, hlookup]

theorem update (hs : s.Lists ts) (i : Nat) (ht : ts[i]? = some t) (hid : t.id = h)
    (halike : Alike t (g t)) (hts : (ts.map fun u => if u.id = h then g t else u) = ts') :
    (s.update h g).Lists ts' := by
  obtain rfl := hid
  have ht : t ∈ s.types := hs.types.symm ▸ List.mem_of_getElem? ht
  have hmem : ∀ {u}, u ∈ (s.update t.id g).types ↔ u = g t ∨ u ∈ s.types ∧ u.id ≠ t.id :=
    hs.flat.mem_update hs.sound ht
  refine ⟨?_, fun u hu => ?_, ?_, hs.substitutes, hs.config⟩
  · refine hs.sound.update_alike fun u hu hid => ?_
    exact hs.sound.eq_of_id (hs.flat.holds_iff.mp hu) ht hid ▸ halike
  · obtain rfl | ⟨hu, -⟩ := hmem.mp hu
    · exact halike.inner.trans (hs.flat t ht)
    · exact hs.flat u hu
  · rw [types_update, ← hts, ← hs.types]
    refine List.map_congr_left fun u hu => ?_
    split
    case isTrue hid =>
      obtain rfl := hs.sound.eq_of_id hu ht hid
      exact updateAt_of_eq rfl
    case isFalse hne =>
      rw [updateAt_of_ne hne, hs.flat u hu, List.map_nil, ← hs.flat u hu]
      cases u
      rfl

end Store.Lists

namespace Ensnared

open Sample

/-- The base of two types, and its own. -/
def hub (status : Status) : SchemaType :=
  { record "S" [] ["Y", "S"] with id := 1, status }

/-- A base of the hub with a field of the type that is caught. -/
def spoke (status : Status) (substituted : Bool) : SchemaType :=
  { record "Y" [] [] with
    id := 2
    status
    fields := [{ tag := .element, name := "t", types := [{ qname := ⟨"urn:t", "T"⟩, substituted }] }] }

/-- A type that has to copy its base, the hub. -/
def snare (status : Status) : SchemaType :=
  { record "T" [] ["S"] with id := 3, status, fields := [{ tag := .any, name := "rest" }] }

def store : Store :=
  ({} : Store).insertAll ([hub .raw, spoke .raw false, snare .raw].map fun t => { t with id := 0 })

theorem lists : store.Lists [hub .raw, spoke .raw false, snare .raw] where
  sound := .insertAll (.empty {}) (.empty {}) (by decide)
  flat := by
    unfold Flat
    decide +kernel
  types := rfl
  substitutes := rfl
  config := rfl

variable {s : Store} {n : Nat} {process : Handle → Compile Unit}

theorem flattenBases_snare (hs : s.Lists [hub .flattening, spoke .flattening true, snare .flattening]) :
    Exceeds [1, 2, 3] (flattenBases (n + 1) (.processing .flattening (n + 1) process) 3) s := by
  have hcaught : Caught [1, 2, 3] [⟨"urn:t", "S"⟩, ⟨"urn:t", "Y"⟩] [⟨"urn:t", "S"⟩] 3 s
      (snare .flattening) := by
    refine ⟨hs.sound, hs.flat, ?_, by simp [hs.types], rfl, rfl, by decide +kernel, by decide +kernel, ?_⟩
    · rw [hs.types]
      rfl
    · simp only [List.forall_mem_cons, hs.preferred?]
      refine ⟨⟨hub .flattening, rfl, by decide, by decide +kernel⟩, ?_, by simp⟩
      exact ⟨spoke .flattening true, rfl, by decide, by decide +kernel⟩
  exact hcaught.settleFrom_exceeds _

theorem processTree_snare (hs : s.Lists [hub .flattening, spoke .flattening true, snare .raw]) (depth : Nat) :
    Exceeds [1, 2, 3] (Step.flatten.processTree (n + 1) (depth + 1) 3) s := by
  refine .processTree rfl (hs.get? 2 rfl rfl) rfl rfl (by decide) ?_
  refine .runPasses_cons (wp_update.mpr (.runPasses (by decide) (flattenBases_snare ?_)))
  have hs₁ : Lists [hub .flattening, spoke .flattening true, snare .flattening]
      (s.update 3 fun t => { t with status := .flattening }) :=
    hs.update 2 rfl rfl ⟨rfl, rfl, rfl, rfl⟩ rfl
  exact hs₁.update 2 rfl rfl ⟨rfl, rfl, rfl, rfl⟩ rfl

theorem bindReferences_spoke (hs : s.Lists [hub .flattening, spoke .flattening true, snare .raw])
    (hprocess : Exceeds [1, 2, 3] (process 3) s) :
    Exceeds [1, 2, 3] (bindReferences (.processing .flattening (n + 1) process) 2) s := by
  have hget : s.get? 2 = some (spoke .flattening true) := hs.get? 1 rfl rfl
  have hsource : s.preferred? ⟨"urn:t", "T"⟩ .element = some (snare .raw) := by
    rw [hs.preferred?]
    rfl
  have hpatterns : s.config.output.ignorePatterns = false := by
    rw [hs.config]
  have hfrom : Exceeds [1, 2, 3] (bindFrom (.processing .flattening (n + 1) process) 2 0 1 0) s := by
    have hdependency : ∀ ft : FieldType, ft.qname = ⟨"urn:t", "T"⟩ →
        Exceeds [1, 2, 3] (bindDependency (.processing .flattening (n + 1) process) 2 0 0 ft) s := by
      rintro ft hft
      unfold bindDependency
      rw [hft]
      exact .fieldOf_bind hget (.bind_left (.findPreferred n hsource (by decide) hprocess))
    unfold bindFrom refAt
    simp only [bind_assoc, pure_bind]
    refine .fieldOf_bind hget ?_
    rw [if_neg (by decide), if_neg (by decide)]
    exact .bind_left (hdependency _ rfl)
  refine .typeOf_bind hget (.get_bind ?_)
  simp only [hpatterns, Bool.false_eq_true, if_false]
  exact .fieldOf_bind hget (.bind_left hfrom)

theorem groupRepetitions_spoke : (spoke .flattening false).groupRepetitions = spoke .flattening false := by
  have hnone : repetitions (spoke .flattening false).fields = [] := by
    decide +kernel
  unfold groupRepetitions
  rw [hnone, disjointSpans, List.mergeSort_nil]
  rfl

/-- Before substitutes are added nothing happens to the spoke. -/
theorem wp_passes_spoke : ∀ pass ∈ Step.flatten.passes.take 5, ∀ s,
    Lists [hub .flattening, spoke .flattening false, snare .raw] s →
    wp (pass.run (n + 1) (.processing .flattening (n + 1) process) 2)
      (fun _ => Lists [hub .flattening, spoke .flattening false, snare .raw]) (fun _ _ => False) s := by
  have hself : ∀ {s g}, Lists [hub .flattening, spoke .flattening false, snare .raw] s →
      g (spoke .flattening false) = spoke .flattening false →
      Lists [hub .flattening, spoke .flattening false, snare .raw] (s.update 2 g) := by
    intro s g hs hg
    refine hs.update (t := spoke .flattening false) 1 rfl rfl ?_ ?_
    · rw [hg]
      exact ⟨rfl, rfl, rfl, rfl⟩
    · rw [hg]
      rfl
  have hget : ∀ {s}, Lists [hub .flattening, spoke .flattening false, snare .raw] s →
      s.get? 2 = some (spoke .flattening false) := by
    intro s hs
    exact hs.get? 1 rfl rfl
  simp only [Step.flatten, List.take_succ_cons, List.take_zero, List.forall_mem_cons]
  refine ⟨fun s hs => ?_, fun s hs => ?_, fun s hs => ?_, fun s hs => ?_, fun s hs => ?_, by simp⟩
  · exact wp_update.mpr (hself hs rfl)
  · exact wp_bind.mpr ((wp_typeOf (hget hs)).mpr (wp_pure.mpr hs))
  · refine wp_bind.mpr (wp_update.mpr (wp_bind.mpr ((wp_typeOf (hget (hself hs rfl))).mpr ?_)))
    exact wp_pure.mpr (hself hs rfl)
  · exact wp_update.mpr (hself hs groupRepetitions_spoke)
  · refine wp_bind.mpr ((wp_typeOf (hget hs)).mpr (wp_bind.mpr (wp_get.mpr ?_)))
    rw [hs.config]
    exact wp_bind.mpr (wp_update.mpr (wp_modify.mpr (hself (g := fun _ => spoke .flattening false) hs rfl)))

theorem wp_addSubstitutes_spoke (hs : s.Lists [hub .flattening, spoke .flattening false, snare .raw]) :
    wp (addSubstitutes (n + 1) 2) (fun _ => Lists [hub .flattening, spoke .flattening true, snare .raw])
      (fun _ _ => False) s := by
  have hexpand : expandSubstitutes (spoke .flattening false).qname [] (n + 1) []
      ((spoke .flattening false).fields.map fun f => { field := f }) [] =
        some ((spoke .flattening true).fields, []) := by
    cases n <;> rfl
  unfold addSubstitutes
  refine wp_bind.mpr ((wp_typeOf (hs.get? 1 rfl rfl)).mpr (wp_bind.mpr (wp_get.mpr ?_)))
  rw [hs.substitutes, hexpand]
  refine wp_bind.mpr (wp_update.mpr (wp_pure.mpr ?_))
  exact hs.update 1 rfl rfl ⟨rfl, rfl, rfl, rfl⟩ rfl

theorem processTree_spoke (hs : s.Lists [hub .flattening, spoke .raw false, snare .raw]) (depth : Nat) :
    Exceeds [1, 2, 3] (Step.flatten.processTree (n + 1) (depth + 2) 2) s := by
  refine .processTree rfl (hs.get? 1 rfl rfl) rfl rfl (by decide) ?_
  have hs₁ : Lists [hub .flattening, spoke .flattening false, snare .raw]
      (s.update 2 fun t => { t with status := .flattening }) :=
    hs.update 1 rfl rfl ⟨rfl, rfl, rfl, rfl⟩ rfl
  refine .runPasses_append (Step.flatten.passes.take 5) (Step.flatten.passes.drop 5) wp_passes_spoke
    (fun s₂ hs₂ => ?_) hs₁
  refine .runPasses_cons (wp_mono (wp_addSubstitutes_spoke hs₂) (fun _ s₃ hs₃ => ?_) fun _ _ hfalse => hfalse)
  exact .runPasses (by decide) (bindReferences_spoke hs₃ (processTree_snare hs₃ depth))

theorem flattenBases_hub (hs : s.Lists [hub .flattening, spoke .raw false, snare .raw])
    (hprocess : Exceeds [1, 2, 3] (process 2) s) :
    Exceeds [1, 2, 3] (flattenBases (n + 1) (.processing .flattening (n + 1) process) 1) s := by
  have hbase : s.preferred? ⟨"urn:t", "Y"⟩ .complexType = some (spoke .raw false) := by
    rw [hs.preferred?]
    rfl
  have hleads : s.leadsTo ⟨"urn:t", "Y"⟩ 1 = false := by
    refine basesLead_eq_false (V := (· = ⟨"urn:t", "Y"⟩)) ?_ _ _ _ (by simp)
    rintro _ rfl b hb
    obtain rfl := Option.some.inj (hbase.symm.trans hb)
    exact ⟨by decide, by decide +kernel⟩
  have hsettle : ∀ e : Extension, e.type = { qname := ⟨"urn:t", "Y"⟩ } →
      Exceeds [1, 2, 3] (settleBase (.processing .flattening (n + 1) process) 1 0 e) s := by
    intro e he
    unfold settleBase
    rw [he]
    simp only
    rw [if_neg (by decide)]
    refine .get_bind ?_
    rw [hleads, if_neg (by decide)]
    exact .bind_left (.findPreferred n hbase (by decide) hprocess)
  exact .typeOf_bind (hs.get? 0 rfl rfl) (.bind_left (hsettle _ rfl))

theorem processTree_hub (hs : s.Lists [hub .raw, spoke .raw false, snare .raw]) (depth : Nat) :
    Exceeds [1, 2, 3] (Step.flatten.processTree (n + 1) (depth + 3) 1) s := by
  refine .processTree rfl (hs.get? 0 rfl rfl) rfl rfl (by decide) ?_
  have hs₁ : Lists [hub .flattening, spoke .raw false, snare .raw]
      (s.update 1 fun t => { t with status := .flattening }) :=
    hs.update 0 rfl rfl ⟨rfl, rfl, rfl, rfl⟩ rfl
  have hs₂ : Lists [hub .flattening, spoke .raw false, snare .raw]
      ((s.update 1 fun t => { t with status := .flattening }).update 1 (·.foldPaths)) :=
    hs₁.update 0 rfl rfl ⟨rfl, rfl, rfl, rfl⟩ rfl
  exact .runPasses_cons (wp_update.mpr (.runPasses (by decide)
    (flattenBases_hub hs₂ (processTree_spoke hs₂ depth))))

theorem runWithin_exceeds (n : Nat) : Exceeds [1, 2, 3] (Step.flatten.runWithin (n + 3) false) store := by
  have hpending : (store.roots.filter (·.type.status < Step.flatten.busy)).map (·.key) = [0, 1, 2] := by
    decide +kernel
  have hs : Lists [hub .raw, spoke .raw false, snare .raw]
      { store with journal := [.swept "flatten" 1 3], memory := { groupMarker := groupMarkerBase } } :=
    ⟨⟨lists.sound.keys, lists.sound.handles, lists.sound.below, lists.sound.byName, lists.sound.byHandle⟩,
      lists.flat, lists.types, rfl, rfl⟩
  refine .bind (wp_modify.mpr (.get_bind ?_))
  simp only [hpending, List.isEmpty_cons, Bool.false_eq_true, if_false]
  rw [forM_prepare]
  -- there is nothing to gather
  refine .bind (wp_bind.mpr (wp_get.mpr (wp_bind.mpr (wp_pure.mpr (wp_modify.mpr ?_)))))
  refine .bind (wp_modify.mpr (.bind_left ?_))
  refine .sweepRoots (e := ⟨0, hub .raw⟩) hs.sound ?_ (by decide) (processTree_hub hs n)
  exact List.mem_cons_self

/-- Whatever the bound, flattening exceeds it. -/
theorem flatten_endless :
    store.Sound ∧ store.Flat ∧ (∀ t ∈ store.types, t.status = .raw) ∧
    ∀ n, wp (Step.flatten.runWithin n false) (fun _ _ => False) (fun e _ => e.cause = .unfinished)
      store := by
  refine ⟨lists.sound, lists.flat, by decide +kernel, fun n => ?_⟩
  match n with
  | 0 => decide +kernel
  | 1 => decide +kernel
  | 2 => decide +kernel
  | n + 3 => exact wp_mono (runWithin_exceeds n) (fun _ _ hfalse => hfalse) fun _ _ hend => hend.1

end Ensnared

end Schemata
