import Mathlib.Data.List.Infix
import Schemata.Proofs.Choice.Grouping
import Schemata.Proofs.Choice.Wrapping
import Schemata.Proofs.Store.Dressed

/-!
# Names of compounds and inherited names

The name of a compound is free among the fields of the direct bases, as these are when the type is
worked on. A base that comes later may still get a compound of that name, and what the bases inherit
themselves is not looked at.
-/

namespace Schemata

open Compile SchemaType

variable {s s' s'' : Store} {t u v w b : SchemaType} {h d k : Handle} {a : Tag × String}
  {g : SchemaType → SchemaType} {extra : List SchemaType} {late : Prop}

-- ---------------------------------------------------------------------------
-- Names that a type gets
-- ---------------------------------------------------------------------------

/-- What a field is and what it is called. -/
def Field.head (f : Field) : Tag × String :=
  (f.tag, f.name)

namespace SchemaType

/-- What the fields of a type are and what they are called. -/
def heads (t : SchemaType) : List (Tag × String) :=
  t.fields.map Field.head

/-- A compound that a type does not have yet. -/
def Gains (t : SchemaType) (a : Tag × String) : Prop :=
  a.1 = .choice ∧ a ∉ t.heads

end SchemaType

namespace Store

/-- The fields of a direct base are in the way of a new name. -/
theorem fields_subset_baseFields (hs : s.Sound) (hindex : s.IndexedByHandle) (hb : s.Holds b)
    (hbase : ∃ e ∈ t.extensions, e.type.reference = b.id) (hzero : b.id ≠ 0) (hne : b.id ≠ t.id)
    (current : List Field) : b.fields ⊆ s.baseFields t current := by
  obtain ⟨e, he, href⟩ := hbase
  have hnodup := hs.handles
  rw [← map_id_walkAll] at hnodup
  have hfound : s.ofHandle? b.id = some b := by
    rw [ofHandle?_eq hs hindex]
    exact (Lists.find?_key_eq_some_iff hnodup).mpr ⟨holds_iff_mem_walkAll.mp hb, rfl⟩
  intro f hf
  refine List.mem_flatMap.mpr ⟨e, he, ?_⟩
  simpa [href, hzero, hfound, hne] using hf

/-- A field of a type with its compounds is one that it has had, or a compound whose name has been free
among the inherited fields. -/
theorem heads_compoundFields (ha : a ∈ (s.compoundFields t).heads) : a ∈ t.heads ∨
    a.1 = .choice ∧ ∃ current, Name.key a.2 ∉ (s.baseFields t current).map (Name.key ·.name) := by
  unfold compoundFields at ha
  split at ha
  case isFalse => exact .inl ha
  case isTrue =>
    obtain ⟨merged, heq, hnew, -⟩ := t.compound_eq s.config.compoundFields (s.baseFields t)
    rw [heq] at ha
    obtain ⟨f, hf, rfl⟩ := List.mem_map.mp ha
    obtain ⟨⟨f₀, i⟩, hf₀, hplace⟩ := List.mem_filterMap.mp hf
    unfold placeCompound at hplace
    split at hplace
    case isFalse =>
      obtain rfl := Option.some.inj hplace
      rw [List.mem_zipIdx_iff_getElem?] at hf₀
      exact .inl (List.mem_map_of_mem (List.mem_of_getElem? hf₀))
    case isTrue hgroup =>
      split at hplace
      case isFalse => cases hplace
      case isTrue =>
        obtain rfl := Option.some.inj hplace
        obtain ⟨name, current, hcompound, hfree⟩ := hnew _ hgroup.2
        rw [hcompound]
        exact .inr ⟨rfl, current, hfree⟩

/-- The name of a new compound is not that of a field of a direct base. -/
theorem key_ne_of_base (hs : s.Sound) (hindex : s.IndexedByHandle) (hb : s.Holds b)
    (hbase : ∃ e ∈ t.extensions, e.type.reference = b.id) (hzero : b.id ≠ 0) (hne : b.id ≠ t.id)
    (ha : a ∈ (s.compoundFields t).heads) (hnew : a ∉ t.heads) {x : Tag × String} (hx : x ∈ b.heads) :
    Name.key x.2 ≠ Name.key a.2 := by
  obtain ⟨-, current, hfree⟩ := (heads_compoundFields ha).resolve_left hnew
  obtain ⟨f, hf, rfl⟩ := List.mem_map.mp hx
  intro heq
  have hmem := fields_subset_baseFields hs hindex hb hbase hzero hne current hf
  exact hfree (heq ▸ List.mem_map_of_mem (f := fun f : Field => Name.key f.name) hmem)

/-- Merging changes nothing of a type but its fields. -/
theorem alike_compoundFields (s : Store) (t : SchemaType) : Alike t (s.compoundFields t) ∧
    (s.compoundFields t).extensions = t.extensions ∧ (s.compoundFields t).status = t.status := by
  unfold compoundFields
  split
  · exact ⟨⟨rfl, rfl, rfl, rfl⟩, rfl, rfl⟩
  · exact ⟨⟨rfl, rfl, rfl, rfl⟩, rfl, rfl⟩

-- ---------------------------------------------------------------------------
-- What becomes of the other types
-- ---------------------------------------------------------------------------

/-- Handles and entry numbers tell types apart, and the indices say what the roots say. -/
structure Regular (s : Store) : Prop where
  sound : s.Sound
  keys : s.KeysBelow
  index : s.IndexedByHandle
  positive : 0 < s.nextHandle

theorem Consistent.regular (hs : s.Consistent) (hhandles : s.handles.Nodup)
    (hbelow : ∀ h ∈ s.handles, h < s.nextHandle) : s.Regular :=
  ⟨hs.sound hhandles hbelow, hs.below, hs.byHandle, hs.positive⟩

/-- What the step makes of a store while it works on the type `active`: types stay where they are, with
their bases, and the others keep their fields but for what these are made of. -/
structure Regroups (active : Option Handle) (s s' : Store) : Prop where
  outline : s.roots.map Entry.outline <+: s'.roots.map Entry.outline
  next : s.nextHandle ≤ s'.nextHandle
  types : ∀ u, s.Holds u → ∃ u', s'.Holds u' ∧ u'.id = u.id ∧ u'.extensions = u.extensions ∧
    (∀ k < s.nextHandle, k ∈ u'.handles ↔ k ∈ u.handles) ∧
    (some u.id ≠ active → u'.heads = u.heads ∧ u'.status = u.status)

namespace Regroups

variable {active : Option Handle}

theorem refl (active : Option Handle) (s : Store) : Regroups active s s :=
  ⟨List.prefix_rfl, Int.le_refl _, fun u hu => ⟨u, hu, rfl, rfl, fun _ _ => Iff.rfl, fun _ => ⟨rfl, rfl⟩⟩⟩

theorem trans (h : Regroups active s s') (h' : Regroups active s' s'') : Regroups active s s'' := by
  refine ⟨h.outline.trans h'.outline, Int.le_trans h.next h'.next, fun u hu => ?_⟩
  obtain ⟨u', hu', hid, hbases, hhandles, hkept⟩ := h.types u hu
  obtain ⟨u'', hu'', hid', hbases', hhandles', hkept'⟩ := h'.types u' hu'
  refine ⟨u'', hu'', hid'.trans hid, hbases'.trans hbases, fun k hlt => ?_, fun hne => ?_⟩
  · exact (hhandles' k (Int.lt_of_lt_of_le hlt h.next)).trans (hhandles k hlt)
  · obtain ⟨hheads, hstatus⟩ := hkept hne
    obtain ⟨hheads', hstatus'⟩ := hkept' (hid ▸ hne)
    exact ⟨hheads'.trans hheads, hstatus'.trans hstatus⟩

theorem of_none (h : Regroups none s s') (active : Option Handle) : Regroups active s s' := by
  refine ⟨h.outline, h.next, fun u hu => ?_⟩
  obtain ⟨u', hu', hid, hbases, hhandles, hkept⟩ := h.types u hu
  exact ⟨u', hu', hid, hbases, hhandles, fun _ => hkept (Option.some_ne_none _)⟩

theorem handles_subset (h : Regroups active s s') : s.handles ⊆ s'.handles := by
  intro k hk
  obtain ⟨u, hu, rfl⟩ := mem_handles_iff.mp hk
  obtain ⟨u', hu', hid, -⟩ := h.types u hu
  exact mem_handles_iff.mpr ⟨u', hu', hid⟩

/-- A change at a handle that may add types with new handles. -/
theorem update {next : Handle} (hs : s.Sound) (hg : Extends g extra)
    (hnumbered : Numbered (extra.flatMap SchemaType.handles) s.nextHandle next)
    (hbases : ∀ u, s.Holds u → u.id = h → (g u).extensions = u.extensions)
    (hkept : some h ≠ active → ∀ u, s.Holds u → u.id = h → (g u).heads = u.heads ∧ (g u).status = u.status) :
    Regroups active s ({ s with nextHandle := next }.update h g) := by
  refine ⟨?_, hnumbered.le, fun u hu => ⟨u.updateAt h g, holds_update hg hs.handles hu,
    hg.widens.updateAt_id u, ?_, fun k hlt => ?_, fun hne => ?_⟩⟩
  · rw [outline_update hg]
  · by_cases hid : u.id = h
    · rw [updateAt_of_eq hid, hbases u hu hid]
    · rw [updateAt_of_ne hid]
      rfl
  · obtain ⟨t, ht, hut⟩ := hu
    have hnodup := hut.nodup_handles (nodup_handles_of_mem hs.handles ht)
    refine ⟨fun hk => ?_, fun hk => hg.widens.handles_subset_updateAt hnodup hk⟩
    by_cases hh : h ∈ u.handles
    · obtain hk | hk := List.mem_append.mp ((hg.widens.handles_updateAt_perm hnodup hh).subset hk)
      · exact hk
      · exact absurd hlt (Int.not_lt.mpr (hnumbered.bounds k hk).1)
    · rwa [updateAt_of_not_mem hh] at hk
  · by_cases hid : u.id = h
    · rw [updateAt_of_eq hid]
      exact hkept (hid ▸ hne) u hu hid
    · rw [updateAt_of_ne hid]
      exact ⟨rfl, rfl⟩

/-- A change of a type in its place. -/
theorem update_alike (hs : s.Sound) (hg : ∀ u, s.Holds u → u.id = h → Alike u (g u))
    (hbases : ∀ u, s.Holds u → u.id = h → (g u).extensions = u.extensions)
    (hkept : some h ≠ active → ∀ u, s.Holds u → u.id = h → (g u).heads = u.heads ∧ (g u).status = u.status) :
    Regroups active s (s.update h g) := by
  obtain ⟨f, hf, hroots, hagree⟩ := exists_extends_update hs.handles hg
  have hupdate : Regroups active s (s.update h f) :=
    update hs hf (.nil s.nextHandle) (fun u hu hid => hagree u hu hid ▸ hbases u hu hid)
      fun hne u hu hid => hagree u hu hid ▸ hkept hne u hu hid
  have hholds : ∀ u, (s.update h f).Holds u → (s.update h g).Holds u := by
    intro u hu
    unfold Holds Store.types
    rwa [hroots]
  refine ⟨hroots ▸ hupdate.outline, hupdate.next, fun u hu => ?_⟩
  obtain ⟨u', hu', hend⟩ := hupdate.types u hu
  exact ⟨u', hholds u' hu', hend⟩

/-- A new root changes nothing of what is there. -/
theorem insert (hs : s.KeysBelow) (hw : 0 ∉ w.handles) :
    Regroups active s ({ s with nextHandle := s.nextHandle + 1 }.insert w) := by
  rw [insert_eq (s := { s with nextHandle := s.nextHandle + 1 }) hs, assignHandles_of_handles hw]
  refine ⟨?_, Int.le_of_lt (Int.lt_succ _), fun u hu =>
    ⟨u, ?_, rfl, rfl, fun _ _ => Iff.rfl, fun _ => ⟨rfl, rfl⟩⟩⟩
  · rw [List.map_append]
    exact List.prefix_append _ _
  · obtain ⟨t, ht, hut⟩ := hu
    obtain ⟨e, he, rfl⟩ := List.mem_map.mp ht
    exact ⟨e.type, List.mem_map_of_mem (List.mem_append_left _ he), hut⟩

end Regroups

/-- Roots that stay where they are stay in the index. -/
theorem IndexedByHandle.of_outline (hs : s.IndexedByHandle)
    (houtline : s'.roots.map Entry.outline = s.roots.map Entry.outline)
    (hbyHandle : s'.byHandle = s.byHandle) : s'.IndexedByHandle := by
  have hroots : ∀ (s : Store) h k, (∃ e ∈ s.roots, e.type.id = h ∧ e.key = k) ↔
      ∃ o ∈ s.roots.map Entry.outline, o.2.1 = h ∧ o.1 = k := by
    intro s h k
    simp only [List.mem_map, exists_exists_and_eq_and]
    rfl
  intro h k
  rw [hbyHandle, hs h k, hroots, hroots, houtline]

namespace Regular

theorem update_alike (hs : s.Regular) (hg : ∀ u, s.Holds u → u.id = h → Alike u (g u)) :
    (s.update h g).Regular where
  sound := hs.sound.update_alike hg
  keys := hs.keys.update _ _
  index := by
    obtain ⟨f, hf, hroots, -⟩ := exists_extends_update hs.sound.handles hg
    exact hs.index.of_outline (hroots ▸ outline_update hf s h) rfl
  positive := hs.positive

theorem update {next : Handle} (hs : s.Regular) (hg : Extends g extra) (hh : h ∈ s.handles)
    (hnumbered : Numbered (extra.flatMap SchemaType.handles) s.nextHandle next) :
    ({ s with nextHandle := next }.update h g).Regular where
  sound := hs.sound.update hg hh hnumbered
  keys := KeysBelow.update (s := { s with nextHandle := next }) hs.keys _ _
  index := hs.index.of_outline (outline_update hg _ h) rfl
  positive := Int.lt_of_lt_of_le hs.positive hnumbered.le

theorem zero_not_mem (hs : s.Regular) (hw : w.handles = [s.nextHandle]) : 0 ∉ w.handles := by
  rw [hw, List.mem_singleton]
  exact Int.ne_of_lt hs.positive

theorem insert (hs : s.Regular) (hw : w.handles = [s.nextHandle]) :
    ({ s with nextHandle := s.nextHandle + 1 }.insert w).Regular := by
  have hkeys := KeysBelow.insert (s := { s with nextHandle := s.nextHandle + 1 }) hs.keys w
  rw [insert_eq (s := { s with nextHandle := s.nextHandle + 1 }) hs.keys,
    assignHandles_of_handles (hs.zero_not_mem hw)] at hkeys ⊢
  have hid : w.id = s.nextHandle := by
    rw [handles_eq] at hw
    exact (List.cons.inj hw).1
  refine ⟨hs.sound.append hs.keys (hw ▸ .single _), hkeys, ?_, Int.lt_trans hs.positive (Int.lt_succ _)⟩
  intro h k
  rw [Index.get?_insert]
  have hold : ∀ e ∈ s.roots, e.type.id ≠ w.id := fun e he heq => by
    have hlt := hs.sound.below _ (mem_handles_iff.mpr ⟨_, holds_of_mem_types (List.mem_map_of_mem he), rfl⟩)
    rw [heq, hid] at hlt
    exact Int.lt_irrefl _ hlt
  simp only [List.mem_append, List.mem_singleton, or_and_right, exists_or, exists_eq_left]
  by_cases hh : h = w.id
  · have hnone : ¬ ∃ e ∈ s.roots, e.type.id = h ∧ e.key = k := by
      rintro ⟨e, he, heq, -⟩
      exact hold e he (heq.trans hh)
    simp [hh, hh ▸ hnone]
  · simp [hh, Ne.symm hh, hs.index h k]

end Regular

end Store

-- ---------------------------------------------------------------------------
-- Wrapping of alternatives
-- ---------------------------------------------------------------------------

theorem SchemaType.heads_referAt (i j : Nat) (ft : FieldType) (t : SchemaType) :
    (t.referAt i j ft).heads = t.heads := by
  unfold heads referAt
  refine List.ext_getElem? fun n => ?_
  simp only [List.getElem?_map, List.getElem?_modify]
  cases t.fields[n]? with
  | none => rfl
  | some f =>
    simp only [Option.map_eq_map, Option.map_some]
    split
    · rfl
    · rfl

namespace Store

variable {i j : Nat} {ft : FieldType}

theorem Regular.wrap_root (hs : s.Regular) (hinner : w.inner = []) (hid : w.id = s.nextHandle) :
    (({ s with nextHandle := s.nextHandle + 1 }.insert w).update h (referAt i j ft)).Regular ∧
      Regroups none s (({ s with nextHandle := s.nextHandle + 1 }.insert w).update h (referAt i j ft)) := by
  have hhandles : w.handles = [s.nextHandle] := by
    rw [handles_eq, hinner, hid, List.flatMap_nil]
  have hinsert := hs.insert hhandles
  refine ⟨hinsert.update_alike fun _ _ _ => ⟨rfl, rfl, rfl, rfl⟩, ?_⟩
  refine (Regroups.insert hs.keys (hs.zero_not_mem hhandles)).trans ?_
  exact .update_alike hinsert.sound (fun _ _ _ => ⟨rfl, rfl, rfl, rfl⟩) (fun _ _ _ => rfl)
    fun _ u _ _ => ⟨heads_referAt _ _ _ u, rfl⟩

theorem Regular.wrap_inner (hs : s.Regular) (hh : h ∈ s.handles) (hinner : w.inner = [])
    (hid : w.id = s.nextHandle) :
    (({ s with nextHandle := s.nextHandle + 1 }.update h fun t => { t with inner := t.inner ++ [w] }).update h
        (referAt i j ft)).Regular ∧
      Regroups none s (({ s with nextHandle := s.nextHandle + 1 }.update h fun t =>
        { t with inner := t.inner ++ [w] }).update h (referAt i j ft)) := by
  have hnumbered : Numbered ([w].flatMap SchemaType.handles) s.nextHandle (s.nextHandle + 1) := by
    rw [List.flatMap_singleton, handles_eq, hinner, hid, List.flatMap_nil]
    exact .single _
  have hg : Extends (referAt i j ft ∘ fun t => { t with inner := t.inner ++ [w] }) [w] :=
    ⟨fun _ => rfl, fun _ => rfl, fun _ => rfl, fun _ => rfl⟩
  rw [update_update (f := fun t => { t with inner := t.inner ++ [w] }) fun _ => rfl]
  exact ⟨hs.update hg hh hnumbered, .update hs.sound hg hnumbered (fun _ _ _ => rfl)
    fun _ u _ _ => ⟨heads_referAt _ _ _ { u with inner := u.inner ++ [w] }, rfl⟩⟩

/-- A store that is regular and has come from the first one by changes that leave its types their names
and their bases, as something to be kept up. -/
def retouching (s₁ : Store) : Upkeep :=
  .always (fun s => s.Regular ∧ Regroups none s₁ s) fun _ _ _ hs =>
    ⟨⟨⟨hs.1.sound.keys, hs.1.sound.handles, hs.1.sound.below, hs.1.sound.byName, hs.1.sound.byHandle⟩,
      hs.1.keys, hs.1.index, hs.1.positive⟩, hs.2.outline, hs.2.next, hs.2.types⟩

theorem keeps_wrapChoice_retouching {s₁ : Store} (i j : Nat) (hs : (retouching s₁).Inv s) (hh : h ∈ s₁.handles) :
    (retouching s₁).conduct.Runs (wrapChoice h i j) s fun _ _ => True := by
  obtain ⟨hregular, hregroups⟩ := hs
  replace hh := hregroups.handles_subset hh
  have hend : ∀ {s'}, s'.Regular ∧ Regroups none s s' → (retouching s₁).Inv s' ∧ True ∧ True :=
    fun hs' => ⟨⟨hs'.1, hregroups.trans hs'.2⟩, trivial, trivial⟩
  unfold wrapChoice
  refine Upkeep.typeOf_bind fun t _ => Upkeep.fieldOf_bind fun t' _ => ?_
  unfold Conduct.Runs
  rw [wp_bind, wp_modifyGet, wp_bind, wp_get]
  split
  · rw [wp_bind, wp_get, wp_bind, wp_modify]
    unfold updateField
    rw [wp_update]
    exact hend (hregular.wrap_root rfl rfl)
  · rw [wp_bind, wp_update]
    unfold updateField
    rw [wp_update]
    exact hend (hregular.wrap_inner hh rfl rfl)

theorem works_separateAlternatives_retouching {s₁ : Store} (hs : (retouching s₁).Inv s) (hh : h ∈ s₁.handles) :
    (retouching s₁).conduct.Runs (separateAlternatives h) s fun _ _ => True := by
  unfold separateAlternatives
  refine Upkeep.typeOf_bind fun t _ => .forM (J := fun _ => True) _ (fun i _ s hs _ => ?_) hs trivial
  refine Upkeep.fieldOf_bind fun t _ => ?_
  split
  · exact .forM (J := fun _ => True) _
      (fun j _ s hs _ => keeps_wrapChoice_retouching i j hs hh) hs trivial
  · exact .pure hs trivial

theorem holds_update_alike (hs : s.handles.Nodup) (hg : ∀ u, s.Holds u → u.id = h → Alike u (g u))
    (ht : s.Holds t) (hid : t.id = h) : (s.update h g).Holds (g t) := by
  obtain ⟨f, hf, hroots, hagree⟩ := exists_extends_update hs hg
  have hheld := holds_update (h := h) hf hs ht
  rw [updateAt_of_eq hid, hagree t ht hid] at hheld
  unfold Holds types
  rwa [hroots]

theorem Regular.setStatus (status : Status) (hs : s.Regular) : (s.update h fun t => { t with status }).Regular :=
  hs.update_alike fun _ _ _ => ⟨rfl, rfl, rfl, rfl⟩

theorem Regroups.setStatus (status : Status) (hs : s.Sound) : Regroups (some h) s (s.update h fun t => { t with status }) :=
  .update_alike hs (fun _ _ _ => ⟨rfl, rfl, rfl, rfl⟩) (fun _ _ _ => rfl) fun hne => absurd rfl hne

/-- What the work on one type comes to: it has its compounds, and the others are as they were. -/
structure Compounds (h : Handle) (t : SchemaType) (s s' : Store) : Prop where
  regular : s'.Regular
  regroups : Regroups (some h) s s'
  holds : ∃ t', s'.Holds t' ∧ t'.id = h ∧ t'.status = .compounded ∧ t'.heads =
    ((s.update h fun t => { t with status := .compounding }).compoundFields
      { t with status := .compounding }).heads

end Store

theorem Compile.wp_runPasses_cons {place : String} {rounds : Nat} {finder : Finder} {pass : Pass} {rest : List Pass}
    {Q : Unit → Store → Prop}
    (hpass : wp (pass.run rounds finder h) (fun _ => wp (runPasses place rounds finder h rest) Q fun _ _ => True)
      (fun _ _ => True) s) :
    wp (runPasses place rounds finder h (pass :: rest)) Q (fun _ _ => True) s := by
  rw [runPasses, wp_bind, wp_tryCatch]
  refine wp_mono hpass (fun _ _ hrest => hrest) fun f s' _ => ?_
  unfold typeOf
  rw [wp_bind, wp_bind, wp_get]
  split
  · rw [wp_pure, wp_throw]
    trivial
  · rw [wp_throw]
    trivial

theorem wp_apply_compound {rounds : Nat} {finder : Finder} (hs : s.Regular) (hh : h ∈ s.handles)
    (ht : s.get? h = some t) :
    wp (Step.compound.apply rounds finder h) (fun _ => Store.Compounds h t s) (fun _ _ => True) s := by
  obtain ⟨hheld, rfl⟩ := Store.get?_of_mem_handles hs.sound.handles hh ht
  -- the type is begun
  generalize hs₁ : (s.update t.id fun t => { t with status := .compounding }) = s₁
  generalize ht₁ : ({ t with status := .compounding } : SchemaType) = t₁
  have hregular₁ : s₁.Regular := hs₁ ▸ hs.setStatus .compounding
  have hto₁ : Store.Regroups (some t.id) s s₁ := hs₁ ▸ .setStatus .compounding hs.sound
  have hid₁ : t₁.id = t.id := ht₁ ▸ rfl
  have hheld₁ : s₁.Holds t₁ := hs₁ ▸ ht₁ ▸
    Store.holds_update_alike hs.sound.handles (fun _ _ _ => ⟨rfl, rfl, rfl, rfl⟩) hheld rfl
  -- its choices are merged
  have hall : ∀ u, s₁.Holds u → u.id = t.id → u = t₁ := fun u hu hid =>
    hu.eq_of_id hregular₁.sound.handles hheld₁ (hid.trans hid₁.symm)
  obtain ⟨halike, hbases, hstatus⟩ := s₁.alike_compoundFields t₁
  have halike₂ : ∀ u, s₁.Holds u → u.id = t.id → Alike u (s₁.compoundFields t₁) := fun u hu hid =>
    hall u hu hid ▸ halike
  generalize hs₂ : (s₁.update t.id fun _ => s₁.compoundFields t₁) = s₂
  have hregular₂ : s₂.Regular := hs₂ ▸ hregular₁.update_alike halike₂
  have hto₂ : Store.Regroups (some t.id) s₁ s₂ := hs₂ ▸ .update_alike hregular₁.sound halike₂
    (fun u hu hid => hall u hu hid ▸ hbases) fun hne => absurd rfl hne
  have hheld₂ : s₂.Holds (s₁.compoundFields t₁) := hs₂ ▸
    Store.holds_update_alike hregular₁.sound.handles halike₂ hheld₁ hid₁
  unfold Step.apply
  rw [wp_bind, wp_update, wp_bind]
  refine wp_runPasses_cons ?_
  change wp (Pass.compoundFields.run rounds finder t.id) _ _ (s.update t.id fun t => { t with status := .compounding })
  rw [hs₁]
  unfold Pass.compoundFields Pass.noting
  rw [wp_bind, wp_get, wp_bind, wp_typeOf (hid₁ ▸ Store.get?_of_holds hregular₁.sound.handles hheld₁), wp_bind,
    wp_update, hs₂, List.forM_eq_forM, List.forM_nil, wp_pure]
  -- alternatives are wrapped
  refine wp_runPasses_cons ?_
  have hkeeps : (Store.retouching s₂).conduct.Runs (separateAlternatives t.id) s₂ fun _ _ => True :=
    Store.works_separateAlternatives_retouching ⟨hregular₂, .refl _ _⟩
      (hto₂.handles_subset (hto₁.handles_subset hh))
  refine wp_mono hkeeps ?_ fun _ _ htrue => htrue
  rintro - s₃ ⟨⟨hregular₃, hto₃⟩, -⟩
  rw [runPasses, wp_pure, wp_update]
  obtain ⟨t₃, hheld₃, hid₃, -, -, hkept⟩ := hto₃.types _ hheld₂
  have hto := ((hto₁.trans hto₂).trans (hto₃.of_none _)).trans (.setStatus .compounded hregular₃.sound)
  have hend := Store.holds_update_alike (h := t.id) (g := fun t => { t with status := .compounded })
    hregular₃.sound.handles (fun _ _ _ => ⟨rfl, rfl, rfl, rfl⟩) hheld₃ (hid₃.trans (halike.id.trans hid₁))
  refine ⟨hregular₃.setStatus .compounded, hto, _, hend, hid₃.trans (halike.id.trans hid₁), rfl, ?_⟩
  subst hs₁ ht₁
  exact (hkept (Option.some_ne_none _)).1

-- ---------------------------------------------------------------------------
-- A type and one of its bases
-- ---------------------------------------------------------------------------

/-- How far a type and one of its bases have come, `u` and `v` being what has become of `t` and `b`. A
name that the type has got is that of a new compound of the base at most, and then only if the base
may come later. -/
structure BaseStage (late : Prop) (t b u v : SchemaType) : Prop where
  bases : u.extensions = t.extensions
  derived : u.status < .compounding → u.heads = t.heads
  base : v.status < .compounding → v.heads = b.heads
  order : ¬ late → v.status < .compounding → u.heads = t.heads
  apart : ∀ a ∈ u.heads, t.Gains a → ∀ x ∈ v.heads, Name.key x.2 = Name.key a.2 → b.Gains x ∧ late

namespace BaseStage

variable {u' v' : SchemaType}

theorem start (late : Prop) (t b : SchemaType) : BaseStage late t b t b :=
  ⟨rfl, fun _ => rfl, fun _ => rfl, fun _ _ => rfl, fun _ ha hgains => absurd ha hgains.2⟩

theorem congr (h : BaseStage late t b u v) (hbases : u'.extensions = u.extensions)
    (hu : u'.heads = u.heads ∧ u'.status = u.status) (hv : v'.heads = v.heads ∧ v'.status = v.status) :
    BaseStage late t b u' v' := by
  obtain ⟨hheads, hstatus⟩ := hu
  obtain ⟨hheads', hstatus'⟩ := hv
  refine ⟨hbases.trans h.bases, ?_, ?_, ?_, ?_⟩
  · rw [hheads, hstatus]
    exact h.derived
  · rw [hheads', hstatus']
    exact h.base
  · rw [hheads, hstatus']
    exact h.order
  · rw [hheads, hheads']
    exact h.apart

/-- The type is worked on. -/
theorem derive (h : BaseStage late t b u v) (hbases : u'.extensions = u.extensions)
    (hbegun : u.status < .compounding) (hdone : ¬ u'.status < .compounding)
    (hv : v'.heads = v.heads ∧ v'.status = v.status) (horder : ¬ late → ¬ v.status < .compounding)
    (hnew : ∀ a ∈ u'.heads, a ∉ u.heads → ∀ x ∈ v.heads, Name.key x.2 ≠ Name.key a.2) :
    BaseStage late t b u' v' := by
  obtain ⟨hheads, hstatus⟩ := hv
  refine ⟨hbases.trans h.bases, fun hlt => absurd hlt hdone, ?_, fun hlate hlt => ?_, fun a ha hgains x hx heq => ?_⟩
  · rw [hheads, hstatus]
    exact h.base
  · exact absurd (hstatus ▸ hlt) (horder hlate)
  · exact absurd heq (hnew a ha (h.derived hbegun ▸ hgains.2) x (hheads ▸ hx))

/-- The base is worked on. -/
theorem rebase (h : BaseStage late t b u v) (hbases : u'.extensions = u.extensions)
    (hu : u'.heads = u.heads ∧ u'.status = u.status) (hbegun : v.status < .compounding)
    (hdone : ¬ v'.status < .compounding) (hnew : ∀ x ∈ v'.heads, x ∈ v.heads ∨ x.1 = .choice) :
    BaseStage late t b u' v' := by
  obtain ⟨hheads, hstatus⟩ := hu
  refine ⟨hbases.trans h.bases, ?_, fun hlt => absurd hlt hdone, fun _ hlt => absurd hlt hdone,
    fun a ha hgains x hx heq => ?_⟩
  · rw [hheads, hstatus]
    exact h.derived
  rw [hheads] at ha
  by_cases hold : x ∈ v.heads
  · exact h.apart a ha hgains x hold heq
  · refine ⟨⟨(hnew x hx).resolve_left hold, h.base hbegun ▸ hold⟩, ?_⟩
    by_contra hlate
    exact hgains.2 (h.order hlate hbegun ▸ ha)

end BaseStage

namespace Store

/-- A type and one of its bases, somewhere on the way through the step. -/
structure Shadowing (late : Prop) (t b : SchemaType) (s : Store) : Prop where
  regular : s.Regular
  stage : ∃ u v, s.Holds u ∧ u.id = t.id ∧ s.Holds v ∧ v.id = b.id ∧ BaseStage late t b u v

/-- The type with the handle is begun. -/
def Begun (s : Store) (h : Handle) : Prop :=
  ∃ u, s.Holds u ∧ u.id = h ∧ ¬ u.status < .compounding

/-- Working on a type keeps the stage, as long as the base is begun before if it does not come later. -/
theorem Shadowing.compounds (hs : s.Shadowing late t b) (hheld : s.Holds w) (hbegun : w.status < .compounding)
    (hbase : ∃ e ∈ t.extensions, e.type.reference = b.id) (hzero : b.id ≠ 0) (hne : b.id ≠ t.id)
    (horder : w.id = t.id → ¬ late → s.Begun b.id) (hend : Compounds w.id w s s') : s'.Shadowing late t b := by
  obtain ⟨hregular, u, v, hu, hut, hv, hvb, hstage⟩ := hs
  obtain ⟨hregular', hto, w', hw', hwid, hdone, hheads⟩ := hend
  have hdone' : ¬ w'.status < .compounding := by
    rw [hdone]
    decide
  obtain ⟨u', hu', huid, hubases, -, hukept⟩ := hto.types u hu
  obtain ⟨v', hv', hvid, -, -, hvkept⟩ := hto.types v hv
  refine ⟨hregular', u', v', hu', huid.trans hut, hv', hvid.trans hvb, ?_⟩
  by_cases hwt : w.id = t.id
  · -- the type itself
    obtain rfl := hheld.eq_of_id hregular.sound.handles hu (hwt.trans hut.symm)
    obtain rfl := hw'.eq_of_id hregular'.sound.handles hu' (hwid.trans huid.symm)
    have hvw : v.id ≠ w.id := fun heq => hne (hvb.symm.trans (heq.trans hut))
    refine hstage.derive hubases hbegun hdone' (hvkept fun heq => hvw (Option.some.inj heq))
      (fun hlate hlt => ?_) fun a ha hnew x hx => ?_
    · obtain ⟨v₀, hv₀, hid₀, hbegun₀⟩ := horder hwt hlate
      obtain rfl := hv₀.eq_of_id hregular.sound.handles hv (hid₀.trans hvb.symm)
      exact hbegun₀ hlt
    · -- the base is the same when the type has been begun
      have hregular₁ := hregular.setStatus (h := w.id) .compounding
      obtain ⟨v₁, hv₁, hvid₁, -, -, hvkept₁⟩ :=
        (Regroups.setStatus (h := w.id) .compounding hregular.sound).types v hv
      have hid₁ : v₁.id = b.id := hvid₁.trans hvb
      refine key_ne_of_base (t := { w with status := .compounding }) hregular₁.sound hregular₁.index hv₁ ?_ ?_ ?_
        (hheads ▸ ha) hnew ((hvkept₁ fun heq => hvw (Option.some.inj heq)).1 ▸ hx)
      · rw [hid₁]
        exact hstage.bases ▸ hbase
      · rwa [hid₁]
      · exact hvid₁ ▸ hvw
  · have hwu : u.id ≠ w.id := fun heq => hwt (heq.symm.trans hut)
    have hukept := hukept fun heq => hwu (Option.some.inj heq)
    by_cases hwb : w.id = b.id
    · -- the base
      obtain rfl := hheld.eq_of_id hregular.sound.handles hv (hwb.trans hvb.symm)
      obtain rfl := hw'.eq_of_id hregular'.sound.handles hv' (hwid.trans hvid.symm)
      refine hstage.rebase hubases hukept hbegun hdone' fun x hx => ?_
      exact (heads_compoundFields (t := { w with status := .compounding }) (hheads ▸ hx)).imp_right And.left
    · have hwv : v.id ≠ w.id := fun heq => hwb (heq.symm.trans hvb)
      exact hstage.congr hubases hukept (hvkept fun heq => hwv (Option.some.inj heq))

/-- The step goes on: types stay where they are, and what is begun stays begun. -/
structure GoesOn (d : Handle) (s s' : Store) : Prop where
  outline : s.roots.map Entry.outline <+: s'.roots.map Entry.outline
  types : ∀ u, s.Holds u → ∃ u', s'.Holds u' ∧ u'.id = u.id ∧ (d ∈ u'.handles ↔ d ∈ u.handles) ∧
    (¬ u.status < .compounding → ¬ u'.status < .compounding)

namespace GoesOn

theorem refl (d : Handle) (s : Store) : GoesOn d s s :=
  ⟨List.prefix_rfl, fun u hu => ⟨u, hu, rfl, Iff.rfl, fun hbegun => hbegun⟩⟩

theorem trans (h : GoesOn d s s') (h' : GoesOn d s' s'') : GoesOn d s s'' := by
  refine ⟨h.outline.trans h'.outline, fun u hu => ?_⟩
  obtain ⟨u', hu', hid, hhandles, hbegun⟩ := h.types u hu
  obtain ⟨u'', hu'', hid', hhandles', hbegun'⟩ := h'.types u' hu'
  exact ⟨u'', hu'', hid'.trans hid, hhandles'.trans hhandles, hbegun' ∘ hbegun⟩

theorem begun (h : GoesOn d s s') (hk : s.Begun k) : s'.Begun k := by
  obtain ⟨u, hu, hid, hbegun⟩ := hk
  obtain ⟨u', hu', hid', -, hstays⟩ := h.types u hu
  exact ⟨u', hu', hid'.trans hid, hstays hbegun⟩

theorem of_compounds (hs : s.Sound) (hd : d ∈ s.handles) (hend : Compounds h t s s') : GoesOn d s s' := by
  obtain ⟨hregular, hto, t', ht', hid, hdone, -⟩ := hend
  refine ⟨hto.outline, fun u hu => ?_⟩
  obtain ⟨u', hu', huid, -, hhandles, hkept⟩ := hto.types u hu
  refine ⟨u', hu', huid, hhandles d (hs.below d hd), fun hbegun => ?_⟩
  by_cases hne : u.id = h
  · obtain rfl := hu'.eq_of_id hregular.sound.handles ht' (huid.trans (hne.trans hid.symm))
    rw [hdone]
    decide
  · rw [(hkept fun heq => hne (Option.some.inj heq)).2]
    exact hbegun

/-- A root is still there. -/
theorem root (h : GoesOn d s s') {e : Entry} (he : e ∈ s.roots) :
    ∃ e' ∈ s'.roots, e'.key = e.key ∧ e'.type.id = e.type.id := by
  obtain ⟨e', he', heq⟩ := List.mem_map.mp (h.outline.subset (List.mem_map_of_mem he))
  exact ⟨e', he', congrArg (·.1) heq, congrArg (·.2.1) heq⟩

end GoesOn

/-- The stage of a type and one of its bases, as something to be kept up. A type may be worked on if it
does not hold the derived type or the base is begun, unless the base may come later. -/
def shadowing (late : Prop) (t b : SchemaType) : Upkeep where
  Inv := Shadowing late t b
  Leads := GoesOn t.id
  Fit s h := ∃ x, s.Holds x ∧ x.id = h ∧ (t.id ∈ x.handles → ¬ late → s.Begun b.id)
  Seek _ _ := False
  Rest _ := late
  refl := .refl _
  trans := .trans
  stays h hfit := by
    obtain ⟨x, hx, rfl, hbegun⟩ := hfit
    obtain ⟨x', hx', hid, hhandles, -⟩ := h.types x hx
    exact ⟨x', hx', hid, fun hd hlate => h.begun (hbegun (hhandles.mp hd) hlate)⟩
  sought _ h := h
  rests _ h := h
  nested hs hfit hget hu := by
    obtain ⟨x, hx, rfl, hbegun⟩ := hfit
    rw [get?_of_holds hs.regular.sound.handles hx] at hget
    obtain rfl := Option.some.inj hget
    exact ⟨_, hx.within hu, rfl, fun hd => hbegun (hu.handles_subset hd)⟩
  found _ h := h.elim
  swept _ hs' hleads hlate he ht := by
    obtain ⟨e', he', hkey, -⟩ := hleads.root he
    rw [← hkey, typeOfKey?_of_mem hs'.regular.sound.keys he'] at ht
    obtain rfl := Option.some.inj ht
    exact ⟨_, holds_of_mem_types (List.mem_map_of_mem he'), rfl, fun _ hnot => absurd hlate hnot⟩
  quiet _ _ _ hs :=
    ⟨⟨⟨⟨hs.regular.sound.keys, hs.regular.sound.handles, hs.regular.sound.below, hs.regular.sound.byName,
      hs.regular.sound.byHandle⟩, hs.regular.keys, hs.regular.index, hs.regular.positive⟩, hs.stage⟩,
      List.prefix_rfl, fun u hu => ⟨u, hu, rfl, Iff.rfl, fun hbegun => hbegun⟩⟩

theorem steps_shadowing (hbase : ∃ e ∈ t.extensions, e.type.reference = b.id) (hzero : b.id ≠ 0)
    (hne : b.id ≠ t.id) : (shadowing late t b).Steps .compound where
  prepare pass hpass s hs := by
    simp only [Step.compound, List.mem_cons, List.not_mem_nil, or_false] at hpass
    obtain rfl | rfl := hpass
    · exact .pure hs trivial
    · exact .pure hs trivial
  apply rounds finder _ s h w hs hfit hget hbegun := by
    have hs : Shadowing late t b s := hs
    obtain ⟨x, hx, rfl, hx'⟩ := hfit
    have hsound := hs.regular.sound
    obtain rfl : x = w := Option.some.inj ((get?_of_holds hsound.handles hx).symm.trans hget)
    refine wp_mono (wp_apply_compound hs.regular (mem_handles_iff.mpr ⟨x, hx, rfl⟩) hget) ?_ fun _ _ htrue => htrue
    intro _ s' hend
    obtain ⟨u, -, hu, hut, -⟩ := hs.stage
    have hd : t.id ∈ s.handles := mem_handles_iff.mpr ⟨u, hu, hut⟩
    refine ⟨hs.compounds hx hbegun hbase hzero hne (fun hid => hx' ?_) hend, .of_compounds hsound hd hend, trivial⟩
    rw [handles_eq, hid]
    exact List.mem_cons_self

end Store

-- ---------------------------------------------------------------------------
-- Roots in order
-- ---------------------------------------------------------------------------

namespace Compile

/-- When the work on a tree has come to its end, all of it is begun. -/
theorem wp_applyTree_end {busy : Status} {apply : Handle → Compile Unit} (rounds : Nat) :
    wp (applyTree busy apply h rounds) (fun _ s' => ∃ t, s'.get? h = some t ∧ t.pending busy = [])
      (fun _ _ => True) s := by
  induction rounds generalizing s with
  | zero =>
    rw [applyTree, wp_throw]
    trivial
  | succ rounds ih =>
    rw [applyTree_succ, wp_bind]
    cases hget : s.get? h with
    | none =>
      unfold typeOf
      simp [hget]
    | some t =>
      rw [wp_typeOf hget]
      split
      case isTrue hnil =>
        rw [wp_pure]
        exact ⟨t, hget, List.isEmpty_iff.mp hnil⟩
      case isFalse =>
        rw [wp_bind]
        exact wp_of_forall (fun _ _ => ih) fun _ _ => trivial

theorem wp_processTree_end {step : Step} (rounds depth : Nat) :
    wp (step.processTree rounds depth h) (fun _ s' => ∃ t, s'.get? h = some t ∧ t.pending step.busy = [])
      (fun _ _ => True) s := by
  cases depth with
  | zero =>
    rw [Step.processTree, wp_throw]
    trivial
  | succ depth =>
    rw [Step.processTree]
    exact wp_applyTree_end rounds

end Compile

namespace Store

/-- What comes before a root has been dealt with by the time that the root is worked on, so the root may
be worked on. -/
def FitInOrder (late : Prop) (t b : SchemaType) (s₀ : Store) : Prop :=
  ∀ ⦃done e rest s x⦄, s₀.roots = done ++ e :: rest → s.Shadowing late t b → GoesOn t.id s₀ s →
    (∀ e' ∈ done, s.Begun e'.type.id) → s.Holds x → x.id = e.type.id → t.id ∈ x.handles → ¬ late →
    s.Begun b.id

theorem keeps_sweepRoots {s₀ : Store} (hsteps : (shadowing late t b).Steps .compound) (bound : Nat)
    (hfit : FitInOrder late t b s₀) {done es : List Entry} (hroots : s₀.roots = done ++ es)
    (hs : s.Shadowing late t b) (hto : GoesOn t.id s₀ s) (hdone : ∀ e ∈ done, s.Begun e.type.id) :
    (shadowing late t b).conduct.Runs (Step.compound.sweepRoots bound
      ((es.filter (·.type.status < .compounding)).map (·.key))) s fun _ _ => True := by
  induction es generalizing done s with
  | nil => exact .pure hs trivial
  | cons e es ih =>
    have hmem : e ∈ s₀.roots := hroots ▸ List.mem_append_right _ List.mem_cons_self
    have hnext : ∀ {s'}, s'.Shadowing late t b → GoesOn t.id s s' → s'.Begun e.type.id →
        (shadowing late t b).conduct.Runs (Step.compound.sweepRoots bound
          ((es.filter (·.type.status < .compounding)).map (·.key))) s' fun _ _ => True := by
      intro s' hs' hto' hbegun
      have hdone' : ∀ e' ∈ done ++ [e], s'.Begun e'.type.id := fun e' he' =>
        (List.mem_append.mp he').elim (fun he' => hto'.begun (hdone e' he'))
          fun he' => List.mem_singleton.mp he' ▸ hbegun
      exact ih (by rw [hroots, List.append_assoc]; rfl) hs' (hto.trans hto') hdone'
    by_cases hpending : e.type.status < .compounding
    · obtain ⟨e', he', hkey, hid⟩ := hto.root hmem
      have hheld : s.Holds e'.type := holds_of_mem_types (List.mem_map_of_mem he')
      have htype := typeOfKey?_of_mem hs.regular.sound.keys he'
      rw [List.filter_cons_of_pos (by simpa using hpending), List.map_cons, Step.sweepRoots, ← hkey]
      refine .get_bind ?_
      rw [htype]
      refine .get_bind ?_
      dsimp only
      split
      case isTrue =>
        have hwork := hsteps.processTree bound bound hs ⟨e'.type, hheld, rfl,
          fun hd hlate => hfit hroots hs hto hdone hheld hid hd hlate⟩
        refine .bind (Q := fun _ s' => s'.Begun e.type.id) ?_ fun _ s' hs' hto' hbegun => hnext hs' hto' hbegun
        refine wp_mono (wp_and hwork (wp_processTree_end bound bound)) ?_ fun _ _ _ => trivial
        rintro - s' ⟨⟨hs', hto', -⟩, x, hx, hnil⟩
        refine ⟨hs', hto', ?_⟩
        -- the root is where it was, with nothing left to do in it
        have hsound' := Shadowing.regular hs' |>.sound
        obtain ⟨e'', he'', -, hid'⟩ := GoesOn.root hto' he'
        have hheld' : s'.Holds e''.type := holds_of_mem_types (List.mem_map_of_mem he'')
        obtain rfl : e''.type = x := Option.some.inj
          ((get?_of_holds hsound'.handles hheld').symm.trans (hid' ▸ hx))
        exact ⟨_, hheld', hid'.trans hid, pending_eq_nil_iff.mp hnil _ .self⟩
      case isFalse hskip =>
        refine hnext hs (.refl _ _) ⟨_, hheld, hid, fun hlt => hskip ?_⟩
        have hcontains : s.contains e'.key = true := by
          rw [contains, htype]
          simp [hs.regular.sound.byHandle e' he']
        rw [hcontains]
        simpa using .inr hlt
    · rw [List.filter_cons_of_neg (by simpa using hpending)]
      exact hnext hs (.refl _ _) (hto.begun ⟨_, holds_of_mem_types (List.mem_map_of_mem hmem), rfl, hpending⟩)

theorem keeps_sweep {s₁ : Store} (hsteps : (shadowing late t b).Steps .compound) (bound : Nat) (cancelled : Bool)
    (rounds number : Nat) (hfit : ∀ ⦃s₀⦄, s₀.Shadowing late t b → GoesOn t.id s₁ s₀ → FitInOrder late t b s₀)
    (hs : s.Shadowing late t b) (hto : GoesOn t.id s₁ s) :
    (shadowing late t b).conduct.Runs (Step.compound.sweep bound cancelled rounds number) s fun _ _ => True := by
  induction rounds generalizing s number with
  | zero => exact .throw trivial
  | succ rounds ih =>
    rw [Step.sweep]
    refine .get_bind ?_
    dsimp only
    split
    case isTrue => exact .pure hs trivial
    case isFalse =>
      split
      · exact .throw trivial
      · refine .bind (.forM (J := fun _ => True) Step.compound.passes
          (fun pass hpass s hs _ => hsteps.prepare pass hpass hs) hs trivial) fun _ s₂ hs₂ hto₂ _ => ?_
        refine .bind (Upkeep.keeps_quiet (Q := fun _ _ => True) hs₂ rfl trivial) fun _ s₃ hs₃ hto₃ _ => ?_
        refine .bind (keeps_sweepRoots hsteps bound (hfit hs hto) (List.nil_append _).symm hs₃ (hto₂.trans hto₃)
          fun _ he => absurd he List.not_mem_nil) fun _ s₄ hs₄ hto₄ _ => ?_
        exact ih (number + 1) hs₄ (hto.trans ((GoesOn.trans hto₂ hto₃).trans hto₄))

theorem keeps_run (hsteps : (shadowing late t b).Steps .compound) (cancelled : Bool)
    (hfit : ∀ ⦃s₀⦄, s₀.Shadowing late t b → GoesOn t.id s s₀ → FitInOrder late t b s₀)
    (hs : s.Shadowing late t b) :
    (shadowing late t b).conduct.Runs (Step.compound.run cancelled) s fun _ _ => True := by
  refine .get_bind ?_
  unfold Step.runWithin
  refine .bind (Upkeep.keeps_quiet (Q := fun _ _ => True) hs rfl trivial (List.nil_subset _)) fun _ s₁ hs₁ hto₁ _ => ?_
  exact keeps_sweep hsteps _ cancelled _ 1 hfit hs₁ hto₁

/-- Roots stay in their order. -/
theorem GoesOn.ids_prefix (h : GoesOn d s s') : s.roots.map (·.type.id) <+: s'.roots.map (·.type.id) := by
  have hids := h.outline.map (·.2.1)
  rwa [List.map_map, List.map_map] at hids

/-- A root that holds the derived type is worked on after the roots before it, the base among them. -/
theorem fitInOrder {s₁ s₀ : Store}
    (hearly : ¬ late → ∃ before r after, s₁.types = before ++ r :: after ∧ Within t r ∧ b ∈ before)
    (hto : GoesOn t.id s₁ s₀) : FitInOrder late t b s₀ := by
  intro done e rest s x hroots hs hto' hdone hx hid hd hlate
  obtain ⟨before, r, after, htypes, htr, hb⟩ := hearly hlate
  have hnodup := hs.regular.sound.handles
  have hgoes := hto.trans hto'
  -- the root is the one that has held the derived type from the start
  obtain ⟨e₁, he₁, rfl⟩ : ∃ e₁ ∈ s₁.roots, e₁.type = r := by
    rw [← List.mem_map]
    change r ∈ s₁.types
    exact htypes ▸ List.mem_append_right _ List.mem_cons_self
  obtain ⟨e', he', -, hid'⟩ := hgoes.root he₁
  obtain ⟨r', hr', hrid, hkept, -⟩ := hgoes.types _ (holds_of_mem_types (List.mem_map_of_mem he₁))
  obtain rfl := hr'.eq_of_id hnodup (holds_of_mem_types (List.mem_map_of_mem he')) (hrid.trans hid'.symm)
  obtain ⟨e'', he'', -, hid''⟩ := hto'.root (hroots ▸ List.mem_append_right _ List.mem_cons_self : e ∈ s₀.roots)
  obtain rfl := hx.eq_of_id hnodup (holds_of_mem_types (List.mem_map_of_mem he'')) (hid.trans hid''.symm)
  have hsame := eq_of_mem_handles hnodup (List.mem_map_of_mem he') (List.mem_map_of_mem he'')
    (hkept.mpr (SchemaType.mem_handles_iff.mpr ⟨t, htr, rfl⟩)) hd
  -- so the same roots come before it
  have hroot : e₁.type.id = e.type.id := by
    rw [← hid', hsame, hid]
  have hids₀ : (done.map (·.type.id) ++ e.type.id :: rest.map (·.type.id)).Nodup := by
    have hnodup₀ := (nodup_root_ids hnodup).sublist hto'.ids_prefix.sublist
    rwa [hroots, List.map_append, List.map_cons] at hnodup₀
  obtain ⟨others, hothers⟩ := hto.ids_prefix
  have hids₁ : s₁.roots.map (·.type.id) = before.map (·.id) ++ e.type.id :: after.map (·.id) := by
    rw [← hroot, ← List.map_cons, ← List.map_append, ← htypes, types, List.map_map]
    rfl
  rw [hids₁, hroots, List.map_append, List.map_cons, List.append_assoc, List.cons_append] at hothers
  have hsplit := (List.nodup_cons.mp (List.nodup_middle.mp hids₀)).1
  rw [List.mem_append, not_or] at hsplit
  obtain ⟨hbefore, -, -⟩ := (List.append_cons_inj_of_notMem hsplit.1 hsplit.2).mp hothers.symm
  have hmem : b.id ∈ done.map (·.type.id) := hbefore ▸ List.mem_map_of_mem hb
  obtain ⟨e₀, he₀, hb₀⟩ := List.mem_map.mp hmem
  exact hb₀ ▸ hdone e₀ he₀

/-- Whether a base comes too late for the names of its compounds to be avoided: it is no root before the
one that holds the type. -/
def Late (s : Store) (t b : SchemaType) : Prop :=
  ∀ before r after, s.types = before ++ r :: after → Within t r → b ∉ before

/-- Compounds that a type gets, and the fields of one of its direct bases. When the step has ended, they
have different names, unless the field is itself a compound that the base has got in the step, and the
base has not come before the type. -/
theorem compound_avoids_bases (cancelled : Bool) (hs : s.Regular) (ht : s.Holds t) (hb : s.Holds b)
    (hbase : ∃ e ∈ t.extensions, e.type.reference = b.id) (hzero : b.id ≠ 0) (hne : b.id ≠ t.id) :
    wp (Step.compound.run cancelled)
      (fun _ s' => ∀ t' b', s'.Holds t' → t'.id = t.id → s'.Holds b' → b'.id = b.id →
        ∀ f ∈ t'.fields, t.Gains f.head → ∀ g ∈ b'.fields, Name.key g.name = Name.key f.name →
          b.Gains g.head ∧ s.Late t b)
      (fun _ _ => True) s := by
  have hearly : ¬ s.Late t b →
      ∃ before r after, s.types = before ++ r :: after ∧ Within t r ∧ b ∈ before := by
    unfold Late
    push Not
    exact id
  have hstart : s.Shadowing (s.Late t b) t b := ⟨hs, t, b, ht, rfl, hb, rfl, .start _ t b⟩
  have hrun := keeps_run (steps_shadowing hbase hzero hne) cancelled
    (fun _ _ hto => fitInOrder hearly hto) hstart
  refine wp_mono hrun ?_ fun _ _ _ => trivial
  rintro - s' ⟨⟨hregular, u, v, hu, hut, hv, hvb, hstage⟩, -⟩ t' b' ht' htid hb' hbid f hf hgains g hg hkey
  obtain rfl := hu.eq_of_id hregular.sound.handles ht' (hut.trans htid.symm)
  obtain rfl := hv.eq_of_id hregular.sound.handles hb' (hvb.trans hbid.symm)
  exact hstage.apart _ (List.mem_map_of_mem hf) hgains _ (List.mem_map_of_mem hg) hkey

end Store

namespace Shadowed

/-- The store that has types with handles of their own as its roots, in order, and merges choices. -/
def storeOf (ts : List SchemaType) : Store :=
  (ts.map Operation.enter ++ [Operation.extend (List.range ts.length)]).foldl Operation.run
    { config.compoundFields := { enabled := true }, nextHandle := ts.length + 1 }

theorem regular_storeOf {ts : List SchemaType}
    (hts : Operation.AllowedAll { config.compoundFields := { enabled := true }, nextHandle := ts.length + 1 }
      (ts.map Operation.enter ++ [Operation.extend (List.range ts.length)]))
    (hhandles : (storeOf ts).handles.Nodup) (hbelow : ∀ h ∈ (storeOf ts).handles, h < (storeOf ts).nextHandle) :
    (storeOf ts).Regular :=
  ((Store.Consistent.empty { compoundFields := { enabled := true } } ts.length).runAll hts).regular hhandles hbelow

def record (id : Handle) (name : String) (fields : List Field) (bases : List SchemaType) : SchemaType :=
  { id, qname := ⟨"urn:t", name⟩, tag := .complexType, fields
    extensions := bases.map fun base =>
      { tag := .extension, type := { qname := base.qname, reference := base.id } } }

def alternatives (names : List String) : List Field :=
  names.map fun name =>
    { tag := .element, name, types := [.ofNative Native.string], restrictions.choice := 1 }

def plain : SchemaType :=
  record 1 "A" [{ tag := .element, name := "p_Or_q", types := [.ofNative Native.string] }] []

def between : SchemaType :=
  record 2 "B" [] [plain]

def derived : SchemaType :=
  record 3 "C" (alternatives ["p", "q"]) [between]

/-- Four names are too many for the name of a compound. -/
def parent : SchemaType :=
  record 1 "A" (alternatives ["a", "b", "c", "d"]) []

def child : SchemaType :=
  record 2 "B" (alternatives ["p", "q", "r", "s"]) [parent]

def heads (s : Store) (h : Handle) : Option (List (Tag × String)) :=
  (s.ofHandle? h).map (·.heads)

/-- The base of a base is not looked at, so a compound is called like a field that the type inherits. And
a base that comes after the type may get a compound that is called like that of the type. -/
theorem compound_shadows :
    (storeOf [plain, between, derived]).Regular ∧
    ([plain, between, derived].flatMap (·.fields.map (Name.key ·.name))).Nodup ∧
    wp (Step.compound.run false) (fun _ s' => heads s' derived.id = some [(.choice, "p_Or_q")] ∧
        heads s' plain.id = some [(.element, "p_Or_q")])
      (fun _ _ => False) (storeOf [plain, between, derived]) ∧
    (storeOf [child, parent]).Regular ∧
    ([child, parent].flatMap (·.fields.map (Name.key ·.name))).Nodup ∧
    wp (Step.compound.run false) (fun _ s' => heads s' child.id = some [(.choice, "choice")] ∧
        heads s' parent.id = some [(.choice, "choice")])
      (fun _ _ => False) (storeOf [child, parent]) := by
  have hfirst : (storeOf [plain, between, derived]).Regular :=
    regular_storeOf (by decide +kernel) (by decide +kernel) (by decide +kernel)
  have hsecond : (storeOf [child, parent]).Regular :=
    regular_storeOf (by decide +kernel) (by decide +kernel) (by decide +kernel)
  exact ⟨hfirst, by decide +kernel, by decide +kernel, hsecond, by decide +kernel, by decide +kernel⟩

/-- A base that comes before is avoided. -/
theorem compound_avoids_early_base :
    (storeOf [parent, child]).Regular ∧ ¬ (storeOf [parent, child]).Late child parent ∧
    wp (Step.compound.run false) (fun _ s' => heads s' child.id = some [(.choice, "choice_1")] ∧
        ∀ t' b', s'.Holds t' → t'.id = child.id → s'.Holds b' → b'.id = parent.id →
          ∀ f ∈ t'.fields, child.Gains f.head → ∀ g ∈ b'.fields, Name.key g.name ≠ Name.key f.name)
      (fun _ _ => False) (storeOf [parent, child]) := by
  have hregular : (storeOf [parent, child]).Regular :=
    regular_storeOf (by decide +kernel) (by decide +kernel) (by decide +kernel)
  have hroots : (storeOf [parent, child]).types = [parent, child] := rfl
  have hearly : ¬ (storeOf [parent, child]).Late child parent := fun hlate =>
    hlate [parent] child [] hroots .self List.mem_cons_self
  have hheld : ∀ t ∈ [parent, child], (storeOf [parent, child]).Holds t := fun t ht =>
    Store.holds_of_mem_types (hroots ▸ ht)
  have havoids := Store.compound_avoids_bases false hregular (hheld child (by simp)) (hheld parent (by simp))
    ⟨_, List.mem_cons_self, rfl⟩ (by decide) (by decide)
  have hrun : wp (Step.compound.run false) (fun _ s' => heads s' child.id = some [(.choice, "choice_1")])
      (fun _ _ => False) (storeOf [parent, child]) := by
    decide +kernel
  refine ⟨hregular, hearly, wp_mono (wp_and hrun havoids) ?_ fun _ _ hfalse => hfalse.1⟩
  rintro _ s' ⟨hname, hend⟩
  exact ⟨hname, fun t' b' ht' htid hb' hbid f hf hgains g hg hkey =>
    hearly (hend t' b' ht' htid hb' hbid f hf hgains g hg hkey).2⟩

end Shadowed

end Schemata
