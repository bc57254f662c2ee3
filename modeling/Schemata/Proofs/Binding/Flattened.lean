import Schemata.Proofs.Binding.Editing

/-!
# Flattening one type

For each pass of flattening it is shown what it makes of the type that it works on. Bases are dropped,
copied or bound; the passes up to the binding of references leave bases alone; binding replaces each
reference by one or more that are bound, where references taken from a type that is seen through are
bound because the type is done. What merges fields afterwards keeps what holds of all their types.
-/

namespace Schemata

open Compile SchemaType Relation Store

variable {R : QName → QName → Prop} {X : QName → Prop} {s s' : Store} {t t' b : SchemaType}
  {q : QName} {h : Handle} {finder : Finder}

-- ---------------------------------------------------------------------------
-- Bases
-- ---------------------------------------------------------------------------

theorem borrowTypes_eq {f : Field} (hf : f.Tame R X q) (source target : Handle) :
    borrowTypes finder source target f = pure f := by
  have htypes : ∀ fts : List FieldType, (∀ ft ∈ fts, ft.Tame R q) →
      fts.mapM (borrowType finder source target) = pure fts := by
    intro fts hfts
    induction fts with
    | nil => rfl
    | cons ft fts ih =>
      obtain ⟨hft, hfts⟩ := List.forall_mem_cons.mp hfts
      simp [List.mapM_cons, borrowType, hft.forward, ih hfts]
  obtain ⟨hchoices, -, hall⟩ := hf
  cases f
  simp only at hchoices hall
  simp [borrowTypes, Field.mapTypesM, htypes _ hall, hchoices, Field.mapTypesOfM]

theorem edits_copyFields (ht : Editing R X h s t) (hb : b ∈ s.types) (r : Restrictions)
    (taken : List String) (places : List Nat) :
    Edits R X h (copyFields finder b.id h r taken places) s t fun copies s' t' =>
      s' = s ∧ t' = t ∧ ∀ f ∈ copies, f.Tame R X b.qname := by
  induction places with
  | nil => exact .pure ht ⟨rfl, rfl, by simp⟩
  | cons i places ih =>
    rw [copyFields]
    refine .fieldOf_root_bind ht hb ?_
    have hf := (ht.binding.tame b hb).getD i
    generalize b.fields[i]?.getD {} = f at hf
    split
    · exact ih
    · have hcopy : (f.mergeFacets r).Tame R X b.qname := hf.congr rfl rfl hf.types
      rw [borrowTypes_eq hcopy, pure_bind]
      refine .bind ih ?_
      rintro copies s t ht - - ⟨rfl, rfl, hcopies⟩
      exact .pure ht ⟨rfl, rfl, List.forall_mem_cons.mpr ⟨hcopy, hcopies⟩⟩

theorem edits_copyBase (ht : Editing R X h s t) (hb : b ∈ s.types) (e : Extension)
    (hq : TransGen R t.qname b.qname) (hX : X b.qname → X t.qname) :
    Edits R X h (copyBase finder b.id h e) s t fun _ _ t' =>
      ∃ added, t'.extensions = t.extensions ++ added := by
  unfold copyBase
  refine .typeOf_bind ht (.typeOf_root_bind ht hb (.bind (edits_copyFields ht hb _ _ _) ?_))
  rintro copies s t ht - - ⟨rfl, rfl, hcopies⟩
  refine .typeOf_root_bind ht hb ?_
  obtain ⟨added, hext, hadded, -⟩ := exists_addBases (fun _ => 0)
    { t with fields := copies ++ t.fields } b.extensions e.restrictions
  have hbtame := ht.binding.tame b hb
  refine .update ht ⟨?_, ?_, ?_, ?_⟩ ?_ ?_ fun s' _ _ => ⟨added, hext⟩
  · exact addBases_id _ _ _
  · exact addBases_qname _ _ _
  · exact addBases_tag _ _ _
  · exact addBases_inner _ _ _
  · exact addBases_status _ _ _
  · refine ht.tame.congr ⟨?_, ?_, ?_, ?_⟩ ?_ (fun f hf => ?_) fun a ha => ?_
    · exact addBases_id _ _ _
    · exact addBases_qname _ _ _
    · exact addBases_tag _ _ _
    · exact addBases_inner _ _ _
    · dsimp only
      rw [addBases_eq]
    · dsimp only at hf
      rw [addBases_fields] at hf
      obtain hf | hf := List.mem_append.mp hf
      · exact (hcopies f hf).inherit hq hX
      · exact ht.tame.fields f hf
    · dsimp only at ha
      rw [hext] at ha
      obtain ha | ha := List.mem_append.mp ha
      · exact ht.tame.bases a ha
      · obtain ⟨c, hc, htype⟩ := hadded a ha
        exact ((hbtame.bases c hc).inherit hq hX).congr htype.symm

theorem edits_dropBase (ht : Editing R X h s t) (i : Nat) :
    Edits R X h (dropBase h i) s t fun _ _ t' => t' = { t with extensions := t.extensions.eraseIdx i } := by
  refine .update ht ⟨rfl, rfl, rfl, rfl⟩ rfl ?_ fun _ _ _ => rfl
  refine ht.tame.congr ⟨rfl, rfl, rfl, rfl⟩ rfl ht.tame.fields fun e he => ?_
  exact ht.tame.bases e (List.mem_of_mem_eraseIdx he)

theorem edits_warn (ht : Editing R X h s t) (code type field message : String) :
    Edits R X h (warn code type field message) s t fun _ _ t' => t' = t :=
  .quiet ht rfl rfl

/-- What becomes of the base at a position: it is dropped, and bases may be added, or it is kept and
bound. -/
def Settles (t : SchemaType) (i : Nat) (e : Extension) (kept : Bool) (s' : Store) (t' : SchemaType) :
    Prop :=
  if kept then ∃ b ∈ s'.types, b.qname = e.type.qname ∧
    t'.extensions = t.extensions.modify i fun e => { e with type.reference := b.id }
  else ∃ added, t'.extensions = t.extensions.eraseIdx i ++ added

/-- A base that is dissolved leaves something in the fields. -/
theorem edits_dissolve (ht : Editing R X h s t) (i : Nat) (e : Extension)
    {g : SchemaType → SchemaType} (hg : ∀ t, g t = { t with fields := (g t).fields })
    (hfields : ∀ f ∈ (g { t with extensions := t.extensions.eraseIdx i }).fields, f.Tame R X t.qname) :
    Edits R X h (do dropBase h i; update h g; pure false) s t (Settles t i e) := by
  refine .bind (edits_dropBase ht i) ?_
  rintro _ s₁ _ ht₁ - - rfl
  refine .bind (P := fun _ _ t' => t'.extensions = t.extensions.eraseIdx i)
    (.update_fields ht₁ _ (hg _) hfields fun _ _ _ => rfl) ?_
  rintro _ s₂ t₂ ht₂ - - hext
  exact .pure ht₂ ⟨[], hext.trans (List.append_nil _).symm⟩

theorem edits_copy (ht : Editing R X h s t) (i : Nat) (e : Extension) (hb : b ∈ s.types)
    (hq : TransGen R t.qname b.qname) (hX : X b.qname → X t.qname) :
    Edits R X h (do dropBase h i; copyBase finder b.id h e; pure false) s t (Settles t i e) := by
  refine .bind (edits_dropBase ht i) ?_
  rintro _ s₁ _ ht₁ hm - rfl
  obtain ⟨b', hb', hid, hqname⟩ := hm.exists_root hb
  rw [← hqname] at hq hX
  rw [← hid]
  refine .bind (edits_copyBase ht₁ hb' e hq hX) ?_
  rintro _ s₂ t₂ ht₂ - - hext
  exact .pure ht₂ hext

theorem edits_settleBase (hX : ∀ q, X q → ¬ TransGen R q q)
    (hfinder : (binding R X).Serves .flattening finder) (ht : Editing R X h s t) {i : Nat}
    {e : Extension} (he : t.extensions[i]? = some e) :
    Edits R X h (settleBase finder h i e) s t (Settles t i e) := by
  have hetame := ht.tame.bases e (List.mem_of_getElem? he)
  unfold settleBase
  dsimp only
  split
  case isTrue hnative =>
    refine edits_dissolve ht i e (fun t => dissolveNative_eq t e) ?_
    exact meets_dissolveNative rfl (tame_tags (hetame.native hnative)) ht.tame.fields hetame.type
  case isFalse hnative =>
  have hq : TransGen R t.qname e.type.qname := by
    refine hetame.type.mentioned ?_
    simp only [Bool.or_eq_true, not_or, Bool.not_eq_true] at hnative
    exact hnative.1
  refine .get_bind ?_
  split
  · refine .bind (edits_dropBase ht i) ?_
    rintro _ s₁ _ ht₁ - - rfl
    refine .typeOf_bind ht₁ (.bind (edits_warn ht₁ _ _ _ _) ?_)
    rintro _ s₂ _ ht₂ - - rfl
    exact .pure ht₂ ⟨[], (List.append_nil _).symm⟩
  refine .bind (.findPreferred ht hX hfinder _ hq) ?_
  rintro r s₀ t ht₀ - - ⟨rfl, hr⟩
  cases r with
  | none =>
    refine .bind (edits_dropBase ht₀ i) ?_
    rintro _ s₁ _ ht₁ - - rfl
    refine .typeOf_bind ht₁ (.get_bind (.bind (edits_warn ht₁ _ _ _ _) ?_))
    rintro _ s₂ _ ht₂ - - rfl
    exact .pure ht₂ ⟨[], (List.append_nil _).symm⟩
  | some source =>
    obtain ⟨b, hb, rfl, hbq, -⟩ := hr source rfl
    rw [← hbq] at hq
    have hsimple : X b.qname → X t.qname := hbq ▸ hetame.textual
    have hbtame := ht₀.binding.tame b hb
    have hbfields : ∀ f ∈ b.fields, f.Tame R X t.qname :=
      fun f hf => (hbtame.fields f hf).inherit hq hsimple
    refine .typeOf_bind ht₀ (.typeOf_root_bind ht₀ hb ?_)
    split
    case isTrue hmembers =>
      refine edits_dissolve ht₀ i e (fun t => dissolveEnumeration_eq t b e) ?_
      have hbX := (hbtame.textual_of_isEnumeration hmembers).1
      exact meets_dissolveEnumeration rfl (tame_tags (hsimple hbX)) ht₀.tame.fields hbfields
        ⟨rfl, fun _ => hq⟩
    case isFalse =>
    split
    · exact edits_dissolve ht₀ i e (g := (·.retypeMembers e.type)) (fun _ => rfl)
        (meets_retypeMembers ht₀.tame.fields hetame.type)
    split
    · exact edits_copy ht₀ i e hb hq hsimple
    split
    · refine .bind (edits_dropBase ht₀ i) ?_
      rintro _ s₁ _ ht₁ - - rfl
      exact .pure ht₁ ⟨[], (List.append_nil _).symm⟩
    · refine .bind (P := fun _ s' t' => Settles t i e true s' t') (.update ht₀ ⟨rfl, rfl, rfl, rfl⟩ rfl ?_ ?_) ?_
      · refine ht₀.tame.congr ⟨rfl, rfl, rfl, rfl⟩ rfl ht₀.tame.fields fun a ha => ?_
        obtain ⟨j, hj⟩ := List.mem_iff_getElem?.mp ha
        rw [List.getElem?_modify, Option.map_eq_map, Option.map_eq_some_iff] at hj
        obtain ⟨a₀, hold, rfl⟩ := hj
        have ha₀ := ht₀.tame.bases a₀ (List.mem_of_getElem? hold)
        split
        · exact ⟨⟨ha₀.type.forward, ha₀.type.mentioned⟩, ha₀.native, ha₀.textual⟩
        · exact ha₀
      · intro s' ht₀' hm
        obtain ⟨b', hb', hid, hqname⟩ := hm.exists_root hb
        exact ⟨b', hb', hqname.trans hbq, by rw [hid]⟩
      · rintro _ s₁ t₁ ht₁ - - hend
        exact .pure ht₁ hend

/-- Bases that are kept are bound. -/
theorem edits_settleFrom (hX : ∀ q, X q → ¬ TransGen R q q)
    (hfinder : (binding R X).Serves .flattening finder) (rounds i : Nat) (ht : Editing R X h s t)
    (hbound : ∀ e ∈ t.extensions.take i, s.Binds e.type) :
    Edits R X h (settleFrom finder h rounds i) s t fun _ s' t' => ∀ e ∈ t'.extensions, s'.Binds e.type := by
  induction rounds generalizing s t i with
  | zero => exact .throw
  | succ rounds ih =>
    rw [settleFrom]
    refine .typeOf_bind ht ?_
    cases he : t.extensions[i]? with
    | none =>
      rw [List.take_of_length_le (List.getElem?_eq_none_iff.mp he)] at hbound
      exact .pure ht hbound
    | some e =>
      have hlt : i < t.extensions.length := (List.getElem?_eq_some_iff.mp he).1
      refine .bind (edits_settleBase hX hfinder ht he) fun kept s' t' ht' hm _ hsettles => ?_
      refine ih _ ht' fun a ha => ?_
      cases kept with
      | false =>
        obtain ⟨added, hext⟩ := hsettles
        have hle : i ≤ (t.extensions.eraseIdx i).length := by
          rw [List.length_eraseIdx_of_lt hlt]
          omega
        rw [if_neg Bool.false_ne_true, hext, List.take_append_of_le_length hle,
          List.take_eraseIdx_eq_take_of_le _ _ _ (Nat.le_refl i)] at ha
        exact hm.binds ht.flat (hbound a ha)
      | true =>
        obtain ⟨b, hb, hqname, hext⟩ := hsettles
        rw [if_pos rfl, hext] at ha
        obtain ⟨j, hj⟩ := List.mem_iff_getElem?.mp ha
        rw [List.getElem?_take] at hj
        split at hj
        case isFalse => cases hj
        case isTrue hji =>
          rw [List.getElem?_modify, Option.map_eq_map, Option.map_eq_some_iff] at hj
          obtain ⟨a₀, hold, rfl⟩ := hj
          split
          case isTrue hij =>
            subst hij
            obtain rfl := Option.some.inj (he.symm.trans hold)
            exact fun _ => ⟨b, holds_of_mem_types hb, rfl, hqname⟩
          case isFalse hij =>
            refine hm.binds ht.flat (hbound a₀ (List.mem_of_getElem? (i := j) ?_))
            rw [List.getElem?_take, if_pos (by omega)]
            exact hold

-- ---------------------------------------------------------------------------
-- Passes that leave bases alone
-- ---------------------------------------------------------------------------

/-- Bases stay as they are. -/
def KeepsBases (t : SchemaType) (_ : Unit) (_ : Store) (t' : SchemaType) : Prop :=
  t'.extensions = t.extensions

/-- The enumerations that a union is made of are roots that it mentions. -/
theorem edits_unionSources (hX : ∀ q, X q → ¬ TransGen R q q)
    (hfinder : (binding R X).Serves .flattening finder) (places : List Nat) (ht : Editing R X h s t)
    (hplaces : ∀ i ∈ places, i < (t.fields[0]?.getD ({} : Field)).types.length) :
    Edits R X h (unionSources finder h places) s t fun r s' t' =>
      t' = t ∧ ∀ sources, r = some sources → ∀ k ∈ sources, ∃ b ∈ s'.types, b.id = k ∧
        TransGen R t.qname b.qname := by
  induction places generalizing s with
  | nil =>
    refine .pure ht ⟨rfl, fun sources hsources k hk => ?_⟩
    rw [← Option.some.inj hsources] at hk
    exact absurd hk List.not_mem_nil
  | cons i places ih =>
    obtain ⟨hi, hrest⟩ := List.forall_mem_cons.mp hplaces
    rw [unionSources]
    refine .fieldOf_bind ht ?_
    have hft := ht.tame.getD 0
    generalize t.fields[0]?.getD ({} : Field) = f at hi hft ⊢
    have hft := hft.types f.types[i] (List.getElem_mem hi)
    rw [List.getElem?_eq_getElem hi, Option.getD_some]
    generalize f.types[i] = ft at hft
    dsimp only
    split
    · exact .pure ht ⟨rfl, nofun⟩
    case isFalse hnative =>
    have hq := hft.mentioned (Bool.eq_false_iff.mpr hnative)
    rw [if_neg (by rw [hft.forward]; exact Bool.false_ne_true)]
    refine .bind (.find ht hX hfinder _ hq) ?_
    rintro r s₁ t ht₁ - - ⟨rfl, hr⟩
    cases r with
    | none => exact .pure ht₁ ⟨rfl, nofun⟩
    | some source =>
      obtain ⟨b, hb, rfl, hbq, -⟩ := hr source rfl
      refine .typeOf_root_bind ht₁ hb ?_
      split
      case isFalse => exact .pure ht₁ ⟨rfl, nofun⟩
      case isTrue =>
        refine .bind (ih ht₁ hrest) ?_
        rintro r s₂ t ht₂ hm - ⟨rfl, hfound⟩
        refine .pure ht₂ ⟨rfl, fun sources hsources k hk => ?_⟩
        obtain ⟨rest, rfl, rfl⟩ := Option.map_eq_some_iff.mp hsources
        obtain rfl | hk := List.mem_cons.mp hk
        · obtain ⟨b', hb', hid, hqname⟩ := hm.exists_root hb
          exact ⟨b', hb', hid, hqname ▸ hbq ▸ hq⟩
        · exact hfound rest rfl k hk

theorem edits_mapM_typeOf (ht : Editing R X h s t) {P : SchemaType → Prop} (ks : List Handle)
    (hks : ∀ k ∈ ks, ∃ b ∈ s.types, b.id = k ∧ P b) :
    Edits R X h (ks.mapM typeOf) s t fun bs s' t' =>
      s' = s ∧ t' = t ∧ ∀ b ∈ bs, b ∈ s.types ∧ P b := by
  induction ks with
  | nil => exact .pure ht ⟨rfl, rfl, by simp⟩
  | cons k ks ih =>
    obtain ⟨⟨b, hb, rfl, hP⟩, hrest⟩ := List.forall_mem_cons.mp hks
    rw [List.mapM_cons]
    refine .typeOf_root_bind ht hb (.bind (ih hrest) ?_)
    rintro bs s t ht - - ⟨rfl, rfl, hbs⟩
    exact .pure ht ⟨rfl, rfl, List.forall_mem_cons.mpr ⟨⟨hb, hP⟩, hbs⟩⟩

theorem edits_flattenUnion (hX : ∀ q, X q → ¬ TransGen R q q)
    (hfinder : (binding R X).Serves .flattening finder) (ht : Editing R X h s t) :
    Edits R X h (flattenUnion finder h) s t (KeepsBases t) := by
  unfold flattenUnion
  refine .typeOf_bind ht ?_
  cases hunion : t.union? with
  | none => exact .pure ht rfl
  | some union =>
    -- the union is the only field, and a text
    have hfields : t.fields = [union] ∧ union.isText = true := by
      unfold union? at hunion
      split at hunion
      case h_2 => cases hunion
      case h_1 f hf =>
        split at hunion
        case isFalse => cases hunion
        case isTrue htag =>
          obtain rfl := Option.some.inj hunion
          exact ⟨hf, by simp [Field.isText, htag.1]⟩
    have hsimple : X t.qname :=
      ht.tame.textual (hfields.1 ▸ List.mem_singleton_self union) (.inl hfields.2)
    have hplaces : ∀ i ∈ List.range union.types.length, i < (t.fields[0]?.getD ({} : Field)).types.length := by
      rw [hfields.1]
      exact fun i hi => List.mem_range.mp hi
    refine .bind (edits_unionSources hX hfinder _ ht hplaces) ?_
    rintro r s₁ t ht₁ - - ⟨rfl, hr⟩
    split
    · exact .pure ht₁ rfl
    · exact .pure ht₁ rfl
    case h_3 sources _ =>
      refine .bind (edits_mapM_typeOf ht₁ sources (hr sources rfl)) ?_
      rintro bs s₂ t ht₂ - - ⟨rfl, rfl, hbs⟩
      refine .typeOf_bind ht₂ ?_
      have hinner : ∀ p, t.inner.filter p = [] := by
        intro p
        rw [ht₂.tame.inner, List.filter_nil]
      rw [hinner]
      refine .bind (P := KeepsBases t) (.update ht₂ ⟨rfl, rfl, rfl, ?_⟩ rfl ?_ fun _ _ _ => rfl) ?_
      · exact (hinner _).trans ht₂.tame.inner.symm
      · refine ht₂.tame.congr ⟨rfl, rfl, rfl, ?_⟩ rfl ?_ ht₂.tame.bases
        · exact (hinner _).trans ht₂.tame.inner.symm
        · refine meets_unionMembers fun b hb f hf => ?_
          obtain ⟨hb, hq⟩ := hbs b hb
          exact ((ht₂.binding.tame b hb).fields f hf).inherit hq fun _ => hsimple
      · rintro _ s₃ t₃ ht₃ - - hkeeps
        exact .quiet ht₃ rfl hkeeps

theorem edits_settleEnumeration (hX : ∀ q, X q → ¬ TransGen R q q)
    (hfinder : (binding R X).Serves .flattening finder) (ht : Editing R X h s t) :
    Edits R X h (settleEnumeration finder h) s t (KeepsBases t) := by
  unfold settleEnumeration
  refine .bind (P := KeepsBases t) (.update_fields ht t.sortOutMembers.fields ?_
    (meets_sortOutMembers ht.tame.fields) fun _ _ _ => rfl) ?_
  · unfold sortOutMembers
    split
    · rfl
    · cases t
      rfl
  · intro _ s₁ t₁ ht₁ _ _ hkeeps
    exact (edits_flattenUnion hX hfinder ht₁).mono fun _ _ _ _ _ _ hkeeps' => hkeeps'.trans hkeeps

theorem edits_promoteInner (ht : Editing R X h s t) :
    Edits R X h (promoteInner h) s t (KeepsBases t) := by
  have hpromote : ∀ all, t.promote all = (t, []) := by
    have hinner := ht.tame.inner
    intro all
    cases t
    simp only at hinner
    simp [promote, promotable, hinner]
  unfold promoteInner
  refine .typeOf_bind ht (.get_bind ?_)
  rw [hpromote]
  refine .bind (P := fun _ _ t' => t' = t) (.update ht ⟨rfl, rfl, rfl, rfl⟩ rfl ht.tame fun _ _ _ => rfl) ?_
  rintro _ s₁ t ht₁ - - rfl
  exact .quiet ht₁ rfl rfl

theorem substitutable_of_binding (hs : s.Binding R X) (q : QName) :
    Substitutable (· = []) (Tag.Tame X q) (FieldType.Tame R q) s.memory.substitutes where
  marked ft hft := ⟨hft.forward, hft.mentioned⟩
  member p hp ft hft hnative hhead := by
    obtain ⟨hchoices, htag, htypes⟩ := hs.substitutes p hp
    refine ⟨hchoices, ?_, fun ft' hft' => ?_⟩
    · rw [htag]
      rintro (htext | hmember)
      · cases htext
      · cases hmember
    · obtain ⟨hforward, hmember⟩ := htypes ft' hft'
      exact ⟨hforward, fun _ => (hhead ▸ hft.mentioned hnative).tail hmember⟩

theorem edits_addSubstitutes (ht : Editing R X h s t) (rounds : Nat) :
    Edits R X h (addSubstitutes rounds h) s t (KeepsBases t) := by
  unfold addSubstitutes
  refine .typeOf_bind ht (.get_bind ?_)
  split
  · exact .throw
  case h_2 fields warnings hexpanded =>
    have hfields : ∀ f ∈ fields, f.Tame R X t.qname := by
      refine meets_expandSubstitutes (substitutable_of_binding ht.binding t.qname) (by simp) ?_ hexpanded
      intro d hd
      obtain ⟨f, hf, rfl⟩ := List.mem_map.mp hd
      exact ht.tame.fields f hf
    refine .bind (P := KeepsBases t) (.update_fields ht _ rfl hfields fun _ _ _ => rfl) ?_
    intro _ s₁ t₁ ht₁ _ _ hkeeps
    exact .record_forM ht₁ fun _ _ _ => hkeeps

-- ---------------------------------------------------------------------------
-- References of fields
-- ---------------------------------------------------------------------------

section References

variable {f : Field} {ft : FieldType} {i k : Nat}

theorem edits_updateField (ht : Editing R X h s t) (hf : t.fields[i]? = some f)
    {change : Field → Field} (htame : (change f).Tame R X t.qname) :
    Edits R X h (updateField h i change) s t fun _ _ t' => t' = t.setField i (change f) := by
  have hset : t.fields.modify i change = t.fields.set i (change f) := by
    rw [List.modify_eq_set_getElem?, hf]
    rfl
  refine .update_fields ht (t.fields.set i (change f)) (by rw [hset]) (fun g hg => ?_)
    fun _ _ _ => rfl
  obtain hg | rfl := List.mem_or_eq_of_mem_set hg
  · exact ht.tame.fields g hg
  · exact htame

theorem edits_refAt_bind {α : Type} {next : FieldType → Compile α} {Q : α → Store → SchemaType → Prop}
    (ht : Editing R X h s t) (hf : t.fields[i]? = some f)
    (hnext : Edits R X h (next (f.types[k]?.getD {})) s t Q) :
    Edits R X h (refAt h i k >>= next) s t Q := by
  unfold refAt
  rw [bind_assoc]
  refine .fieldOf_bind ht ?_
  rw [hf, pure_bind]
  exact hnext

/-- Some references that are bound have been put in the place of one. -/
def Places (t : SchemaType) (i k : Nat) (f : Field) (placed : Nat) (s' : Store) (t' : SchemaType) :
    Prop :=
  ∃ f' fts, t' = t.setField i f' ∧ f'.types = f.types.take k ++ fts ++ f.types.drop (k + 1) ∧
    fts.length = placed ∧ ∀ ft ∈ fts, s'.Binds ft

theorem edits_updateRef (ht : Editing R X h s t) (hf : t.fields[i]? = some f)
    (hft : f.types[k]? = some ft) {change : FieldType → FieldType}
    (htame : (change ft).Tame R t.qname) (hbinds : ∀ s', Moves (some h) s s' → s'.Binds (change ft)) :
    Edits R X h (updateRef h i k change) s t fun _ s' t' => Places t i k f 1 s' t' := by
  obtain ⟨hlt, hk⟩ := List.getElem?_eq_some_iff.mp hft
  have hevery := ht.tame.fields f (List.mem_of_getElem? hf)
  have htypes : f.types.modify k change = f.types.take k ++ [change ft] ++ f.types.drop (k + 1) := by
    rw [List.modify_eq_take_cons_drop hlt, hk, List.append_assoc, List.singleton_append]
  refine (edits_updateField ht hf (hevery.congr rfl rfl fun a ha => ?_)).mono fun _ s' t' _ hm _ heq => ?_
  · dsimp only at ha
    rw [htypes, List.mem_append, List.mem_append, List.mem_singleton] at ha
    obtain (ha | rfl) | ha := ha
    · exact hevery.types a (List.mem_of_mem_take ha)
    · exact htame
    · exact hevery.types a (List.mem_of_mem_drop ha)
  · exact ⟨_, [change ft], heq, htypes, rfl, by simpa using hbinds s' hm⟩

theorem edits_bindCopies (ht : Editing R X h s t) (hf : t.fields[i]? = some f) (source : Handle)
    (places : List Nat) :
    Edits R X h (bindCopies finder source h i places) s t fun _ s' t' => s' = s ∧ t' = t := by
  have hevery := ht.tame.fields f (List.mem_of_getElem? hf)
  induction places with
  | nil => exact .pure ht ⟨rfl, rfl⟩
  | cons k places ih =>
    rw [bindCopies]
    refine edits_refAt_bind ht hf ?_
    have hforward : (f.types[k]?.getD {}).forward = false := by
      cases hft : f.types[k]? with
      | none => rfl
      | some ft => exact (hevery.types ft (List.mem_of_getElem? hft)).forward
    rw [if_neg (by rw [hforward]; exact Bool.false_ne_true)]
    exact ih

theorem edits_seeThrough (ht : Editing R X h s t) (hf : t.fields[i]? = some f) (k : Nat)
    (hb : b ∈ s.types) (hne : b.id ≠ h) (hbegun : ¬ b.status < .flattening)
    (hq : TransGen R t.qname b.qname) (hbound : ∀ ft ∈ b.fieldTypes, s.Binds ft) :
    Edits R X h (seeThrough finder b.id h i k) s t fun placed s' t' => Places t i k f placed s' t' := by
  have hevery := ht.tame.fields f (List.mem_of_getElem? hf)
  have htext := (ht.binding.tame b hb).getD 0
  have htextBound : ∀ ft ∈ (b.fields[0]?.getD ({} : Field)).types, s.Binds ft := by
    intro ft hft
    cases hfield : b.fields[0]? with
    | none => simp [hfield] at hft
    | some g =>
      refine hbound ft (mem_fieldTypes_iff.mpr (.inl ⟨g, List.mem_of_getElem? hfield, .own ?_⟩))
      simpa [hfield] using hft
  unfold seeThrough
  refine .fieldOf_root_bind ht hb ?_
  generalize htextEq : b.fields[0]?.getD ({} : Field) = text at htext htextBound ⊢
  refine .bind (edits_updateField ht hf (hevery.congr rfl rfl fun ft hft => ?_)) ?_
  · obtain hft | hft := List.mem_append.mp hft
    · obtain hft | hft := List.mem_append.mp hft
      · exact hevery.types ft (List.mem_of_mem_take hft)
      · exact (htext.types ft hft).inherit hq
    · exact hevery.types ft (List.mem_of_mem_drop hft)
  rintro _ s₁ _ ht₁ hm₁ - rfl
  have hf₁ := getElem?_setField hf { f with types := f.types.take k ++ text.types ++ f.types.drop (k + 1) }
  refine .bind (edits_bindCopies ht₁ hf₁ b.id _) ?_
  rintro _ s₂ t₂ ht₂ - - ⟨rfl, rfl⟩
  have hb₁ : b ∈ s₂.types :=
    hm₁.begun ht.binding.sound hb hbegun fun heq => hne (Option.some.inj heq)
  refine .fieldOf_root_bind ht₂ hb₁ ?_
  have hevery₁ := ht₂.tame.fields _ (List.mem_of_getElem? hf₁)
  refine .bind (edits_updateField ht₂ hf₁ (hevery₁.congr rfl rfl hevery₁.types)) ?_
  rintro _ s₃ _ ht₃ hm₃ - rfl
  refine .pure ht₃ ⟨_, text.types, setField_setField _ _ _ _, rfl, rfl, fun ft hft => ?_⟩
  exact (hm₁.trans hm₃).binds ht.flat (htextBound ft hft)

theorem edits_bindDependency (hX : ∀ q, X q → ¬ TransGen R q q)
    (hfinder : (binding R X).Serves .flattening finder) (ht : Editing R X h s t)
    (hf : t.fields[i]? = some f) (hft : f.types[k]? = some ft) (hnative : ft.native = false) :
    Edits R X h (bindDependency finder h i k ft) s t fun placed s' t' => Places t i k f placed s' t' := by
  have htame := (ht.tame.fields f (List.mem_of_getElem? hf)).types ft (List.mem_of_getElem? hft)
  have hq := htame.mentioned hnative
  unfold bindDependency
  refine .fieldOf_bind ht (.bind (.findPreferred ht hX hfinder _ hq) ?_)
  rintro r s₁ t ht₁ - - ⟨rfl, hr⟩
  cases r with
  | none =>
    refine edits_refAt_bind ht₁ hf (.typeOf_bind ht₁ (.fieldOf_bind ht₁ (.get_bind ?_)))
    refine .bind (edits_warn ht₁ _ _ _ _) ?_
    rintro _ s₂ t ht₂ - - rfl
    refine .bind (edits_updateRef ht₂ hf hft (FieldType.tame_ofNative _) fun _ _ => nofun) ?_
    rintro _ s₃ t₃ ht₃ - - hplaces
    exact .pure ht₃ hplaces
  | some source =>
    obtain ⟨b, hb, rfl, hbq, hbegun⟩ := hr source rfl
    refine .typeOf_root_bind ht₁ hb ?_
    split
    case isTrue hsee =>
      have hsimple := (ht₁.binding.tame b hb).textual_of_isTransparent hsee.2
      rw [← hbq] at hq
      exact edits_seeThrough ht₁ hf k hb hsee.1 hbegun hq
        (ht₁.bound_of_textual hb hsee.1 hbegun hsimple hq)
    case isFalse =>
      refine .bind (edits_updateRef ht₁ hf hft ⟨htame.forward, htame.mentioned⟩ fun s' hm _ => ?_) ?_
      · obtain ⟨b', hb', hid, hqname⟩ := hm.exists_root hb
        exact ⟨b', holds_of_mem_types hb', hid, hqname.trans hbq⟩
      · rintro _ s₂ t₂ ht₂ - - hplaces
        exact .pure ht₂ hplaces

theorem edits_bindFrom (hX : ∀ q, X q → ¬ TransGen R q q)
    (hfinder : (binding R X).Serves .flattening finder) (count k : Nat) (ht : Editing R X h s t)
    (hf : t.fields[i]? = some f) (hlength : f.types.length = k + count)
    (hbound : ∀ ft ∈ f.types.take k, s.Binds ft) :
    Edits R X h (bindFrom finder h i count k) s t fun _ s' t' =>
      ∃ f', t' = t.setField i f' ∧ ∀ ft ∈ f'.types, s'.Binds ft := by
  induction count generalizing k s t f with
  | zero =>
    rw [List.take_of_length_le (i := k) (Nat.le_of_eq hlength)] at hbound
    exact .pure ht ⟨f, (setField_self hf).symm, hbound⟩
  | succ count ih =>
    obtain ⟨ft, hft⟩ : ∃ ft, f.types[k]? = some ft :=
      ⟨f.types[k], List.getElem?_eq_getElem (by omega)⟩
    -- going on after some references have been put in the place of this one
    have hnext : ∀ {placed s' t'}, Editing R X h s' t' → Moves (some h) s s' →
        Places t i k f placed s' t' →
        Edits R X h (bindFrom finder h i count (k + placed)) s' t' fun _ s'' t'' =>
          ∃ f', t'' = t.setField i f' ∧ ∀ ft ∈ f'.types, s''.Binds ft := by
      rintro placed s' t' ht' hm ⟨f', fts, rfl, htypes, rfl, hbinds⟩
      have hk : (f.types.take k).length = k := List.length_take_of_le (by omega)
      refine (ih (k + fts.length) ht' (getElem?_setField hf f') ?_ ?_).mono ?_
      · rw [htypes]
        simp only [List.length_append, List.length_drop, hk]
        omega
      · rw [htypes, List.take_left' (by rw [List.length_append, hk])]
        intro a ha
        obtain ha | ha := List.mem_append.mp ha
        · exact hm.binds ht.flat (hbound a ha)
        · exact hbinds a ha
      · rintro _ s'' t'' - - - ⟨f'', rfl, hend⟩
        exact ⟨f'', setField_setField _ _ _ _, hend⟩
    have htame := (ht.tame.fields f (List.mem_of_getElem? hf)).types ft (List.mem_of_getElem? hft)
    rw [bindFrom]
    refine edits_refAt_bind ht hf ?_
    rw [hft, Option.getD_some]
    dsimp only
    split
    case isTrue hnative =>
      refine .bind (edits_updateRef ht hf hft ⟨htame.forward, nofun⟩ fun _ _ => nofun) ?_
      intro _ s₁ t₁ ht₁ hm₁ _ hplaces
      split
      case isFalse => exact hnext ht₁ hm₁ hplaces
      case isTrue =>
        obtain ⟨f₁, fts, rfl, htypes, hlength, hbinds⟩ := hplaces
        have hf₁ := getElem?_setField hf f₁
        have hevery := ht₁.tame.fields f₁ (List.mem_of_getElem? hf₁)
        refine .bind (edits_updateField ht₁ hf₁ (hevery.congr rfl rfl hevery.types)) ?_
        rintro _ s₂ _ ht₂ hm₂ - rfl
        refine hnext ht₂ (hm₁.trans hm₂) ⟨_, fts, setField_setField _ _ _ _, htypes, hlength, fun a ha => ?_⟩
        exact hm₂.binds ht₁.flat (hbinds a ha)
    case isFalse hnative =>
      rw [if_neg (by rw [htame.forward]; exact Bool.false_ne_true)]
      simp only [Bool.or_eq_true, not_or, Bool.not_eq_true] at hnative
      refine .bind (edits_bindDependency hX hfinder ht hf hft hnative.1) ?_
      intro placed s₁ t₁ ht₁ hm₁ _ hplaces
      exact hnext ht₁ hm₁ hplaces

theorem edits_bindFields (hX : ∀ q, X q → ¬ TransGen R q q)
    (hfinder : (binding R X).Serves .flattening finder) (places : List Nat) (ht : Editing R X h s t)
    (hplaces : ∀ i ∈ places, i < t.fields.length) :
    Edits R X h (bindFields finder h places) s t fun _ s' t' =>
      t'.extensions = t.extensions ∧ t'.fields.length = t.fields.length ∧
      ∀ j f', t'.fields[j]? = some f' →
        j ∈ places ∨ (∃ f, t.fields[j]? = some f ∧ ∀ ft ∈ f.types, s.Binds ft) →
        ∀ ft ∈ f'.types, s'.Binds ft := by
  induction places generalizing s t with
  | nil =>
    refine .pure ht ⟨rfl, rfl, fun j f' hf' hor => ?_⟩
    obtain hj | ⟨f, hf, hbound⟩ := hor
    · exact absurd hj List.not_mem_nil
    · exact Option.some.inj (hf.symm.trans hf') ▸ hbound
  | cons i places ih =>
    obtain ⟨hi, hrest⟩ := List.forall_mem_cons.mp hplaces
    -- from the field as it is found, with or without its pattern
    have hfield : ∀ {s₁ t₁ f₁}, Editing R X h s₁ t₁ → Moves (some h) s s₁ → t₁ = t.setField i f₁ →
        Edits R X h (do
          bindFrom finder h i (← fieldOf h i).types.length 0
          updateField h i fun f => { f with types := distinctTypes f.types }
          bindFields finder h places) s₁ t₁ fun _ s' t' =>
            t'.extensions = t.extensions ∧ t'.fields.length = t.fields.length ∧
            ∀ j f', t'.fields[j]? = some f' →
              j ∈ i :: places ∨ (∃ f, t.fields[j]? = some f ∧ ∀ ft ∈ f.types, s.Binds ft) →
              ∀ ft ∈ f'.types, s'.Binds ft := by
      rintro s₁ _ f₁ ht₁ hm₁ rfl
      have hf₁ : (t.setField i f₁).fields[i]? = some f₁ := List.getElem?_set_self hi
      refine .fieldOf_bind ht₁ ?_
      rw [hf₁, Option.getD_some]
      refine .bind (edits_bindFrom hX hfinder _ 0 ht₁ hf₁ (Nat.zero_add _).symm (by simp)) ?_
      rintro _ s₂ _ ht₂ hm₂ - ⟨f₂, rfl, hbound₂⟩
      have hf₂ := getElem?_setField hf₁ f₂
      have hevery := ht₂.tame.fields f₂ (List.mem_of_getElem? hf₂)
      refine .bind (edits_updateField ht₂ hf₂ (hevery.congr rfl rfl
        (Field.forall_distinctTypes hevery.types))) ?_
      rintro _ s₃ _ ht₃ hm₃ - rfl
      have hm := (hm₁.trans hm₂).trans hm₃
      simp only [setField_setField] at ht₃ ⊢
      refine (ih ht₃ fun j hj => ?_).mono ?_
      · rw [setField, List.length_set]
        exact hrest j hj
      · rintro _ s' t' - - - ⟨hext, hlength, hend⟩
        refine ⟨hext, hlength.trans List.length_set, fun j f' hf' hor => hend j f' hf' ?_⟩
        by_cases hji : j = i
        · subst hji
          refine .inr ⟨_, List.getElem?_set_self hi, Field.forall_distinctTypes fun ft hft => ?_⟩
          exact hm₃.binds ht₂.flat (hbound₂ ft hft)
        · obtain hj | ⟨f, hf, hbound⟩ := hor
          · exact .inl ((List.mem_cons.mp hj).resolve_left hji)
          · refine .inr ⟨f, ?_, fun ft hft => hm.binds ht.flat (hbound ft hft)⟩
            rw [setField, List.getElem?_set_ne (Ne.symm hji)]
            exact hf
    obtain ⟨f, hf⟩ : ∃ f, t.fields[i]? = some f := ⟨t.fields[i], List.getElem?_eq_getElem hi⟩
    have hevery := ht.tame.fields f (List.mem_of_getElem? hf)
    rw [bindFields]
    refine .get_bind ?_
    split
    · refine .bind (edits_updateField ht hf (hevery.congr rfl rfl hevery.types)) ?_
      rintro _ s₁ _ ht₁ hm₁ - rfl
      exact hfield ht₁ hm₁ rfl
    · exact hfield ht (.refl _ s) (setField_self hf).symm

/-- Every reference of a field is bound. -/
theorem edits_bindReferences (hX : ∀ q, X q → ¬ TransGen R q q)
    (hfinder : (binding R X).Serves .flattening finder) (ht : Editing R X h s t) :
    Edits R X h (bindReferences finder h) s t fun _ s' t' =>
      t'.extensions = t.extensions ∧ ∀ f ∈ t'.fields, ∀ ft ∈ f.types, s'.Binds ft := by
  unfold bindReferences
  refine .typeOf_bind ht ((edits_bindFields hX hfinder _ ht fun i hi => List.mem_range.mp hi).mono ?_)
  rintro _ s' t' - - - ⟨hext, hlength, hend⟩
  refine ⟨hext, fun f hf => ?_⟩
  obtain ⟨j, hj⟩ := List.mem_iff_getElem?.mp hf
  refine hend j f hj (.inl (List.mem_range.mpr ?_))
  rw [← hlength]
  exact (List.getElem?_eq_some_iff.mp hj).1

end References

-- ---------------------------------------------------------------------------
-- The step
-- ---------------------------------------------------------------------------

theorem edits_runPasses {place : String} {rounds : Nat} {pass : Pass} {rest : List Pass}
    {P Q : Unit → Store → SchemaType → Prop} (hpass : Edits R X h (pass.run rounds finder h) s t P)
    (hrest : ∀ s' t', Editing R X h s' t' → Moves (some h) s s' → P () s' t' →
      Edits R X h (runPasses place rounds finder h rest) s' t' Q) :
    Edits R X h (runPasses place rounds finder h (pass :: rest)) s t Q := by
  rw [runPasses]
  refine .bind (P := P) ?_ fun _ s' t' ht' hm _ hP => hrest s' t' ht' hm hP
  unfold Edits
  rw [wp_tryCatch]
  refine wp_mono hpass (fun _ _ hend => hend) fun e s' _ => ?_
  have hrethrow : (binding R X).conduct.Runs (do
      let t ← typeOf h
      throw ((e.within t.qname.text).within place)) s' fun (_ : Unit) _ => False :=
    Upkeep.typeOf_bind fun t _ => .throw trivial
  exact wp_mono hrethrow (fun _ _ hend => hend.2.2.elim) fun _ _ htrue => htrue

/-- Every base is bound. -/
def BoundBases (s : Store) (t : SchemaType) : Prop :=
  ∀ e ∈ t.extensions, s.Binds e.type

/-- Every field is bound. -/
def BoundFields (s : Store) (t : SchemaType) : Prop :=
  ∀ f ∈ t.fields, f.Every (fun _ => True) s.Binds

theorem BoundBases.moves (hbound : BoundBases s t) (hs : s.Flat) {active : Option Handle}
    (hm : Moves active s s') (hext : t'.extensions = t.extensions) : BoundBases s' t' :=
  fun e he => hm.binds hs (hbound e (hext ▸ he))

theorem BoundFields.moves (hbound : ∀ f ∈ t.fields, f.Every (fun _ => True) s.Binds) (hs : s.Flat)
    {active : Option Handle} (hm : Moves active s s') : BoundFields s' t :=
  fun f hf => (hbound f hf).mono (fun _ htrue => htrue) fun _ hft => hm.binds hs hft

/-- The passes leave the type with all its references bound. -/
theorem edits_flatten (hX : ∀ q, X q → ¬ TransGen R q q)
    (hfinder : (binding R X).Serves .flattening finder) (place : String) (rounds : Nat)
    (ht : Editing R X h s t) :
    Edits R X h (runPasses place rounds finder h Step.flatten.passes) s t fun _ s' t' =>
      ∀ ft ∈ t'.fieldTypes, s'.Binds ft := by
  refine edits_runPasses (P := fun _ _ _ => True)
    (.update_fields ht _ rfl (meets_foldPaths ht.tame.fields) fun _ _ _ => trivial) ?_
  intro s₁ t₁ ht₁ _ _
  refine edits_runPasses (edits_settleFrom hX hfinder rounds 0 ht₁ (by simp)) ?_
  intro s₂ t₂ ht₂ _ hbases₂
  refine edits_runPasses (edits_settleEnumeration hX hfinder ht₂) ?_
  intro s₃ t₃ ht₃ hm₃ hext₃
  have hbases₃ := BoundBases.moves hbases₂ ht₂.flat hm₃ hext₃
  refine edits_runPasses (P := fun _ s' t' => BoundBases s' t') (.update_fields ht₃ t₃.groupRepetitions.fields ?_
    (meets_groupRepetitions ht₃.tame.fields) fun s' _ hm => hbases₃.moves ht₃.flat hm rfl) ?_
  · unfold groupRepetitions
    split
    · cases t₃
      rfl
    · rfl
  intro s₄ t₄ ht₄ _ hbases₄
  refine edits_runPasses (edits_promoteInner ht₄) ?_
  intro s₅ t₅ ht₅ hm₅ hext₅
  have hbases₅ := hbases₄.moves ht₄.flat hm₅ hext₅
  refine edits_runPasses (edits_addSubstitutes ht₅ rounds) ?_
  intro s₆ t₆ ht₆ hm₆ hext₆
  have hbases₆ := hbases₅.moves ht₅.flat hm₆ hext₆
  refine edits_runPasses (edits_bindReferences hX hfinder ht₆) ?_
  intro s₇ t₇ ht₇ hm₇ hbound₇
  have hbases₇ := hbases₆.moves ht₆.flat hm₇ hbound₇.1
  have hfields₇ : BoundFields s₇ t₇ := fun f hf =>
    ⟨(ht₇.tame.fields f hf).choices, trivial, hbound₇.2 f hf⟩
  refine edits_runPasses (P := fun _ s' t' => BoundBases s' t' ∧ BoundFields s' t')
    (.update_fields ht₇ _ rfl (meets_mergeFields ht₇.tame.fields) fun s' _ hm =>
      ⟨hbases₇.moves ht₇.flat hm rfl, BoundFields.moves (meets_mergeFields hfields₇) ht₇.flat hm⟩) ?_
  rintro s₈ t₈ ht₈ - ⟨hbases₈, hfields₈⟩
  have hany : Tag.Tame X t₈.qname .any := by
    rintro (htext | hmember)
    · cases htext
    · cases hmember
  refine edits_runPasses (P := fun _ s' t' => BoundBases s' t' ∧ BoundFields s' t')
    (.update_fields ht₈ t₈.collectMixed.fields ?_
      (meets_collectMixed rfl hany (FieldType.tame_ofNative _) ht₈.tame.fields) fun s' _ hm =>
        ⟨hbases₈.moves ht₈.flat hm rfl,
          BoundFields.moves (meets_collectMixed rfl trivial nofun hfields₈) ht₈.flat hm⟩) ?_
  · unfold collectMixed
    split
    · rfl
    · cases t₈
      rfl
  rintro s₉ t₉ ht₉ - ⟨hbases₉, hfields₉⟩
  refine edits_runPasses (P := fun _ s' t' => BoundBases s' t' ∧ BoundFields s' t') (.get_bind ?_) ?_
  · rw [if_neg ht₉.binding.wrapped]
    exact .pure ht₉ ⟨hbases₉, hfields₉⟩
  rintro s' t' ht' - ⟨hbases, hfields⟩
  refine .pure ht' fun ft hft => ?_
  obtain ⟨f, hf, hrefers⟩ | ⟨e, he, rfl⟩ := mem_fieldTypes_iff.mp hft
  · cases hrefers with
    | own hft => exact (hfields f hf).types ft hft
    | choice hc => exact absurd ((hfields f hf).choices ▸ hc) List.not_mem_nil
  · exact hbases e he

/-- The work on a type that has not been begun leaves it done and bound. -/
theorem begins_flatten (hX : ∀ q, X q → ¬ TransGen R q q) (rounds : Nat)
    (hfinder : (binding R X).Serves .flattening finder) :
    (binding R X).Begins .flattening (Step.flatten.apply rounds finder) := by
  rintro s h t hs ⟨t₀, ht, rfl, hfree⟩ hget hpending
  have hs : Binding R X s := hs
  obtain rfl : t₀ = t := Option.some.inj ((hs.sound.get?_root ht).symm.trans hget)
  have htame := hs.tame t₀ ht
  obtain ⟨hs₁, hmem₁, hm₁⟩ := hs.update (g := fun t => { t with status := .flattening }) ht
    ⟨rfl, rfl, rfl, rfl⟩ ⟨htame.inner, htame.fields, htame.bases, htame.heads⟩ (.inr (.inl rfl)) nofun
  have ht₁ : Editing R X t₀.id (s.update t₀.id fun t => { t with status := .flattening })
      { t₀ with status := .flattening } := by
    refine ⟨hs₁, hmem₁.mpr (.inl rfl), rfl, rfl, fun u hu hne => ?_⟩
    obtain rfl | ⟨hu, -⟩ := hmem₁.mp hu
    · exact absurd rfl hne
    · exact hfree u hu
  unfold Conduct.Runs Step.apply
  rw [wp_bind, wp_update, wp_bind]
  refine wp_mono (edits_flatten hX hfinder _ rounds ht₁) ?_ fun _ _ htrue => htrue
  rintro _ s₂ ⟨t₂, ht₂, hm₂, -, hbound₂⟩
  rw [wp_update]
  have htame₂ := ht₂.tame
  obtain ⟨hs₃, hmem₃, hm₃⟩ := ht₂.binding.update (g := fun t => { t with status := .flattened }) ht₂.mem
    ⟨rfl, rfl, rfl, rfl⟩ ⟨htame₂.inner, htame₂.fields, htame₂.bases, htame₂.heads⟩ (.inr (.inr rfl))
    fun _ => hbound₂
  have hmem := hmem₃.mpr (.inl rfl)
  rw [ht₂.id] at hs₃ hm₃ hmem
  have hm := (hm₁.trans hm₂).trans hm₃
  exact ⟨hs₃, hm.finish hs₃.sound ht hpending hmem rfl rfl, trivial⟩

/-- What is gathered before a sweep are fields that stand for members of groups. -/
theorem standsIn_of_mem_substitutions (hs : s.Binding R X) {p : QName × Field}
    (hp : p ∈ s.substitutions.1) : p.2.StandsIn R p.1 := by
  obtain ⟨⟨head, t⟩, hmem, rfl⟩ := List.mem_map.mp hp
  obtain ⟨t', ht, hmem⟩ := List.mem_flatMap.mp (List.mem_of_mem_filter hmem)
  obtain ⟨head', hhead, heq⟩ := List.mem_map.mp hmem
  obtain ⟨rfl, rfl⟩ := Prod.mk.inj heq
  refine ⟨rfl, rfl, fun ft hft => ?_⟩
  obtain rfl := List.mem_singleton.mp hft
  exact ⟨rfl, (hs.tame t' ht).heads head' hhead⟩

theorem keeps_prepareSubstitutes (hs : s.Binding R X) :
    (binding R X).conduct.Runs prepareSubstitutes s fun _ _ => True := by
  unfold prepareSubstitutes
  refine .get_bind ?_
  have hgathered : ∀ p ∈ s.substitutions.1, p.2.StandsIn R p.1 :=
    fun p hp => standsIn_of_mem_substitutions hs hp
  refine .bind (.forM (J := fun _ => True) _ (fun d _ s hs _ => Upkeep.keeps_quiet hs rfl trivial)
    hs trivial) fun _ s₁ hs₁ _ _ => ?_
  have hs₁ : Binding R X s₁ := hs₁
  exact .modify (hs₁.remember _ s₁.journal hgathered) ⟨rfl, fun _ ht _ => .inl ht⟩ trivial

theorem steps_flatten (hX : ∀ q, X q → ¬ TransGen R q q) : (binding R X).Steps .flatten where
  prepare pass hpass s hs := by
    simp only [Step.flatten, List.mem_cons, List.not_mem_nil, or_false] at hpass
    -- of the passes, one gathers something
    obtain rfl | rfl | rfl | rfl | rfl | rfl | rfl | rfl | rfl | rfl := hpass
    case inr.inr.inr.inr.inr.inl => exact keeps_prepareSubstitutes hs
    all_goals exact .pure hs trivial
  apply rounds finder hfinder := begins_flatten hX rounds hfinder

end Schemata
