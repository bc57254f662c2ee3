import Schemata.Proofs.Binding.Passes

/-!
# Links and the vacuuming of inner types

Vacuuming drops and renames inner types of a type, and the forward links of the type itself follow.
Links to types that are nested deeper are left as they are, so they are the only ones that can lose
the type that they lead to.

After clean-up links may be unbound, but none leads to a root of another name or to a handle that is
still to be given out. From there on no stage binds a link or unbinds one: whether all are bound has
been settled.
-/

namespace Schemata

open SchemaType

variable {t u v : SchemaType} {l : Link} {h old new : Handle} {q : QName}

namespace SchemaType

/-- What vacuuming leaves of an inner type, whatever its name. -/
def core (t : SchemaType) : Handle × List SchemaType × List Link :=
  (t.id, t.inner, t.links)

/-- A forward link to a type that is not directly nested. -/
def Deep (t : SchemaType) (l : Link) : Prop :=
  l ∈ t.links ∧ l.forward = true ∧ l.target ∉ t.inner.map (·.id)

theorem mem_links_redirect : l ∈ (t.redirect old q new).links ↔
    (l ∈ t.links ∧ ¬(l.forward = true ∧ l.target = old)) ∨
      ((∃ k ∈ t.links, k.forward = true ∧ k.target = old) ∧ l = ⟨true, new, q⟩) := by
  have hlinks : (t.redirect old q new).links =
      t.links.map fun l => if l.forward && l.target == old then ⟨true, new, q⟩ else l := by
    rw [redirect, links_mapFieldTypes, links, List.map_filterMap]
    refine List.filterMap_congr fun ft _ => ?_
    unfold FieldType.link?
    by_cases hold : ft.forward = true ∧ ft.reference = old
    · cases ft.native with
      | false => simp [hold]
      | true => simp [hold]
    · cases hnative : ft.native with
      | false => simp [hold, hnative]
      | true => simp [hold, hnative]
  rw [hlinks, List.mem_map]
  constructor
  · rintro ⟨k, hk, rfl⟩
    split
    case isTrue hold => exact .inr ⟨⟨k, hk, by simpa using hold⟩, rfl⟩
    case isFalse hold => exact .inl ⟨hk, by simpa using hold⟩
  · rintro (⟨hl, hold⟩ | ⟨⟨k, hk, hold⟩, rfl⟩)
    · exact ⟨l, hl, if_neg (by simpa using hold)⟩
    · exact ⟨k, hk, if_pos (by simpa using hold)⟩

theorem mem_links_release : l ∈ (t.release old).links ↔
    l ∈ t.links ∧ ¬(l.forward = true ∧ l.target = old) := by
  rw [release, links_mapFieldTypes, List.mem_filterMap]
  constructor
  · rintro ⟨ft, hft, hlink⟩
    split at hlink
    case isTrue => simp [FieldType.ofNative, FieldType.link?] at hlink
    case isFalse hold =>
      refine ⟨mem_links_iff.mpr ⟨ft, hft, hlink⟩, ?_⟩
      unfold FieldType.link? at hlink
      split at hlink
      · cases hlink
      · obtain rfl := Option.some.inj hlink
        simpa using hold
  · rintro ⟨hl, hold⟩
    obtain ⟨ft, hft, hlink⟩ := mem_links_iff.mp hl
    refine ⟨ft, hft, ?_⟩
    rw [if_neg ?_, hlink]
    unfold FieldType.link? at hlink
    split at hlink
    · cases hlink
    · obtain rfl := Option.some.inj hlink
      simpa using hold

end SchemaType

-- ---------------------------------------------------------------------------
-- One type
-- ---------------------------------------------------------------------------

/-- What vacuuming has come to after some of the inner types of a type: its links lead where they
led, or to inner types that stay, under the names that these have now. -/
structure Vacuumed.After (t : SchemaType) (past : List SchemaType) (v : Vacuumed) : Prop where
  alike : Alike t v.parent
  kept : (v.kept.map core).Sublist (past.map core)
  standing : v.standing ⊆ v.kept
  links : ∀ l ∈ v.parent.links, (l ∈ t.links ∧ (l.forward = true → l.target ∉ past.map (·.id))) ∨
    (l.forward = true ∧ ∃ c ∈ v.kept, c.id = l.target ∧ c.qname = l.qname)
  others : ∀ l ∈ t.links, (l.forward = true → l.target ∉ past.map (·.id)) → l ∈ v.parent.links

namespace Vacuumed.After

variable {past : List SchemaType} {v w : Vacuumed} {c : SchemaType}

/-- What one round has to do to the links of the parent. -/
theorem extend (hv : After t past v) (halike : Alike v.parent w.parent)
    (hkept : (w.kept.map core).Sublist ((past ++ [c]).map core)) (hmore : v.kept ⊆ w.kept)
    (hstanding : w.standing ⊆ w.kept)
    (hlinks : ∀ l ∈ w.parent.links,
      (l ∈ v.parent.links ∧ ¬(l.forward = true ∧ l.target = c.id)) ∨
        (l.forward = true ∧ ∃ c ∈ w.kept, c.id = l.target ∧ c.qname = l.qname))
    (hothers : ∀ l ∈ v.parent.links, ¬(l.forward = true ∧ l.target = c.id) → l ∈ w.parent.links) :
    After t (past ++ [c]) w where
  alike := ⟨halike.id.trans hv.alike.id, halike.qname.trans hv.alike.qname,
    halike.tag.trans hv.alike.tag, halike.inner.trans hv.alike.inner⟩
  kept := hkept
  standing := hstanding
  links l hl := by
    obtain ⟨hl, hne⟩ | hbound := hlinks l hl
    · obtain ⟨hl, hpast⟩ | ⟨hforward, k, hk, hbound⟩ := hv.links l hl
      · refine .inl ⟨hl, fun hforward hmem => ?_⟩
        rw [List.map_append, List.mem_append] at hmem
        obtain hmem | hmem := hmem
        · exact hpast hforward hmem
        · exact hne ⟨hforward, List.mem_singleton.mp hmem⟩
      · exact .inr ⟨hforward, k, hmore hk, hbound⟩
    · exact .inr hbound
  others l hl hpast := by
    refine hothers l (hv.others l hl fun hforward hmem => ?_) fun ⟨hforward, htarget⟩ => ?_
    · exact hpast hforward (List.map_append ▸ List.mem_append_left _ hmem)
    · refine hpast hforward ?_
      rw [htarget, List.map_append]
      exact List.mem_append_right _ List.mem_cons_self

theorem step (hv : After t past v)
    (hname : ∀ l ∈ t.links, l.forward = true → c.id = l.target → c.qname = l.qname) :
    After t (past ++ [c]) (v.step c) := by
  have hdropped : (v.kept.map core).Sublist ((past ++ [c]).map core) := by
    rw [List.map_append]
    exact hv.kept.trans (List.sublist_append_left _ _)
  have hkept : ∀ c' : SchemaType, c'.core = c.core →
      ((v.kept ++ [c']).map core).Sublist ((past ++ [c]).map core) := by
    intro c' hcore
    rw [List.map_append, List.map_append]
    refine hv.kept.append ?_
    rw [List.map_singleton, List.map_singleton, hcore]
  have hstanding : ∀ c' : SchemaType, c' :: v.standing ⊆ v.kept ++ [c'] := by
    intro c'
    refine List.cons_subset.mpr ⟨List.mem_append_right _ List.mem_cons_self, ?_⟩
    exact List.subset_append_of_subset_left _ hv.standing
  unfold Vacuumed.step
  split
  case h_1 first hfirst =>
    have hmem := hv.standing (List.mem_of_find?_eq_some hfirst)
    refine hv.extend ⟨rfl, rfl, rfl, rfl⟩ hdropped (List.Subset.refl _) hv.standing (fun l hl => ?_)
      fun l hl hne => mem_links_redirect.mpr (.inl ⟨hl, hne⟩)
    obtain hl | ⟨-, rfl⟩ := mem_links_redirect.mp hl
    · exact .inl hl
    · exact .inr ⟨rfl, first, hmem, rfl, rfl⟩
  case h_2 =>
    split
    · refine hv.extend ⟨rfl, rfl, rfl, rfl⟩ hdropped (List.Subset.refl _) hv.standing (fun l hl => ?_)
        fun l hl hne => mem_links_release.mpr ⟨hl, hne⟩
      exact .inl (mem_links_release.mp hl)
    split
    · refine hv.extend ⟨rfl, rfl, rfl, rfl⟩ (hkept _ rfl) (List.subset_append_left _ _)
        (hstanding _) (fun l hl => ?_) fun l hl hne => mem_links_redirect.mpr (.inl ⟨hl, hne⟩)
      obtain hl | ⟨-, rfl⟩ := mem_links_redirect.mp hl
      · exact .inl hl
      · exact .inr ⟨rfl, _, List.mem_append_right _ List.mem_cons_self, rfl, rfl⟩
    · refine hv.extend ⟨rfl, rfl, rfl, rfl⟩ (hkept c rfl) (List.subset_append_left _ _)
        (hstanding c) (fun l hl => ?_) fun l hl _ => hl
      by_cases htarget : l.forward = true ∧ l.target = c.id
      · obtain ⟨hl, -⟩ | ⟨hforward, k, hk, hbound⟩ := hv.links l hl
        · refine .inr ⟨htarget.1, c, List.mem_append_right _ List.mem_cons_self, htarget.2.symm, ?_⟩
          exact hname l hl htarget.1 htarget.2.symm
        · exact .inr ⟨hforward, k, List.mem_append_left _ hk, hbound⟩
      · exact .inl ⟨hl, htarget⟩

theorem foldl (hv : After t past v) (rest : List SchemaType)
    (hnames : ∀ c ∈ rest, ∀ l ∈ t.links, l.forward = true → c.id = l.target → c.qname = l.qname) :
    After t (past ++ rest) (rest.foldl Vacuumed.step v) := by
  induction rest generalizing past v with
  | nil => rwa [List.append_nil]
  | cons c rest ih =>
    obtain ⟨hname, hnames⟩ := List.forall_mem_cons.mp hnames
    rw [List.foldl_cons, List.append_cons]
    exact ih (hv.step hname) hnames

end Vacuumed.After

namespace SchemaType

theorem after_vacuum
    (hnames : ∀ c ∈ t.inner, ∀ l ∈ t.links, l.forward = true → c.id = l.target → c.qname = l.qname) :
    Vacuumed.After t t.inner (t.inner.foldl Vacuumed.step { parent := t }) := by
  have hstart : Vacuumed.After t [] { parent := t } :=
    ⟨⟨rfl, rfl, rfl, rfl⟩, .slnil, List.nil_subset _, fun l hl => .inl ⟨hl, fun _ => List.not_mem_nil⟩,
      fun l hl _ => hl⟩
  exact hstart.foldl t.inner hnames

/-- Vacuuming keeps what a type is called, and what it leaves of the inner types is in order. -/
theorem vacuum_shape (t : SchemaType) : t.vacuum.id = t.id ∧ t.vacuum.qname = t.qname ∧
    t.vacuum.tag = t.tag ∧ (t.vacuum.inner.map core).Sublist (t.inner.map core) := by
  have hfold : ∀ (rest : List SchemaType) (v : Vacuumed),
      (rest.foldl Vacuumed.step v).parent.id = v.parent.id ∧
      (rest.foldl Vacuumed.step v).parent.qname = v.parent.qname ∧
      (rest.foldl Vacuumed.step v).parent.tag = v.parent.tag ∧
      ∃ more, (rest.foldl Vacuumed.step v).kept = v.kept ++ more ∧
        (more.map core).Sublist (rest.map core) := by
    intro rest
    induction rest with
    | nil => exact fun v => ⟨rfl, rfl, rfl, [], (List.append_nil _).symm, .slnil⟩
    | cons c rest ih =>
      intro v
      obtain ⟨hid, hqname, htag, more, hkept, hmore⟩ := ih (v.step c)
      rw [List.foldl_cons, hid, hqname, htag, hkept]
      unfold Vacuumed.step
      split
      · exact ⟨rfl, rfl, rfl, more, rfl, hmore.cons _⟩
      split
      · exact ⟨rfl, rfl, rfl, more, rfl, hmore.cons _⟩
      split
      · exact ⟨rfl, rfl, rfl, _ :: more, List.append_assoc _ _ _, hmore.cons_cons _⟩
      · exact ⟨rfl, rfl, rfl, c :: more, List.append_assoc _ _ _, hmore.cons_cons _⟩
  obtain ⟨hid, hqname, htag, more, hkept, hmore⟩ := hfold t.inner { parent := t }
  rw [List.nil_append] at hkept
  refine ⟨hid, hqname, htag, ?_⟩
  rw [← hkept] at hmore
  exact hmore

theorem handles_vacuum_sublist (t : SchemaType) : t.vacuum.handles.Sublist t.handles := by
  obtain ⟨hid, -, -, hinner⟩ := vacuum_shape t
  have hcore : ∀ ts : List SchemaType,
      ts.flatMap handles = (ts.map core).flatMap fun p => p.1 :: p.2.1.flatMap handles := by
    intro ts
    rw [List.flatMap_map]
    exact List.flatMap_congr fun u _ => handles_eq u
  rw [handles_eq, handles_eq t, hid, hcore, hcore]
  exact (Lists.flatMap_sublist hinner _).cons_cons _

theorem handles_updateAt_sublist {g : SchemaType → SchemaType}
    (hg : ∀ u, (g u).handles.Sublist u.handles) (t : SchemaType) :
    (t.updateAt h g).handles.Sublist t.handles := by
  induction t using induct with
  | type t ih =>
    by_cases hid : t.id = h
    · rw [updateAt_of_eq hid]
      exact hg t
    · rw [updateAt_of_ne hid, handles_eq, handles_eq t, withInner_id, withInner_inner]
      refine List.Sublist.cons_cons _ ?_
      generalize t.inner = inner at ih
      induction inner with
      | nil => exact .slnil
      | cons c inner ihs =>
        rw [List.map_cons, List.flatMap_cons, List.flatMap_cons]
        exact (ih c List.mem_cons_self).append (ihs fun u hu => ih u (List.mem_cons_of_mem _ hu))

/-- A type in the course of a clean-up, and what it was in the beginning: its links lead to roots, to
direct inner types under the names that these have now, or deeper as they did. -/
structure Traced (t u : SchemaType) : Prop where
  id : u.id = t.id
  inner : u.inner.map (·.id) ⊆ t.inner.map (·.id)
  links : ∀ l ∈ u.links, (l ∈ t.links ∧ l.forward = false) ∨
    (l.forward = true ∧ ∃ c ∈ u.inner, c.id = l.target ∧ c.qname = l.qname) ∨ t.Deep l
  deep : ∀ l, t.Deep l → l ∈ u.links

theorem Traced.vacuum (htu : Traced t u) (hnodup : (u.inner.map (·.id)).Nodup) :
    Traced t u.vacuum := by
  have hnames : ∀ c ∈ u.inner, ∀ l ∈ u.links, l.forward = true → c.id = l.target →
      c.qname = l.qname := by
    intro c hc l hl hforward hid
    obtain ⟨-, hnot⟩ | ⟨-, c', hc', hid', hqname⟩ | ⟨-, -, hdeep⟩ := htu.links l hl
    · rw [hforward] at hnot
      cases hnot
    · obtain rfl := List.inj_on_of_nodup_map hnodup hc hc' (hid.trans hid'.symm)
      exact hqname
    · exact absurd (htu.inner (hid ▸ List.mem_map_of_mem hc)) hdeep
  have hafter := after_vacuum hnames
  obtain ⟨hid, -, -, hinner⟩ := vacuum_shape u
  have hids : u.vacuum.inner.map (·.id) ⊆ u.inner.map (·.id) := by
    have hids := (hinner.map (·.1)).subset
    rwa [List.map_map, List.map_map] at hids
  refine ⟨hid.trans htu.id, List.Subset.trans hids htu.inner, fun l hl => ?_, fun l hdeep => ?_⟩
  · obtain ⟨hl, hpast⟩ | hbound := hafter.links l hl
    · obtain hdependency | ⟨hforward, c, hc, hid, -⟩ | hdeep := htu.links l hl
      · exact .inl hdependency
      · exact absurd (hid ▸ List.mem_map_of_mem hc) (hpast hforward)
      · exact .inr (.inr hdeep)
    · exact .inr (.inl hbound)
  · exact hafter.others l (htu.deep l hdeep) fun _ hmem => hdeep.2.2 (htu.inner hmem)

end SchemaType

-- ---------------------------------------------------------------------------
-- All types
-- ---------------------------------------------------------------------------

namespace Store

variable {s s₁ s₂ : Store}

/-- A store in the course of a clean-up of another one. -/
structure Cleaning (s₁ s : Store) : Prop where
  sound : s.Sound
  keys : s.KeysBelow
  nextHandle : s.nextHandle = s₁.nextHandle
  outline : s.roots.map Entry.outline = s₁.roots.map Entry.outline
  traced : ∀ ⦃u⦄, s.Holds u → ∃ t, s₁.Holds t ∧ Traced t u

theorem Anchored.cleaning (hs : s.Sound) (hkeys : s.KeysBelow) (hanchored : s.Anchored) :
    s.Cleaning s := by
  refine ⟨hs, hkeys, rfl, rfl, fun u hu => ⟨u, hu, rfl, List.Subset.refl _, fun l hl => ?_, fun l h => h.1⟩⟩
  cases hforward : l.forward with
  | false => exact .inl ⟨hl, rfl⟩
  | true =>
    refine .inr ?_
    by_cases hmem : l.target ∈ u.inner.map (·.id)
    · obtain ⟨c, hc, hid⟩ := List.mem_map.mp hmem
      obtain ⟨c', hc', v, hv, hvid, hqname⟩ := hanchored.forward hu l hl hforward
      obtain rfl := Holds.eq_of_id hs.handles (hu.within (.inner hc .self))
        (hu.within (.inner hc' hv)) (hid.trans hvid.symm)
      exact .inl ⟨rfl, c, hc, hid, hqname⟩
    · exact .inr ⟨hl, hforward, hmem⟩

theorem Cleaning.nodup_inner (hs : Cleaning s₁ s) (hu : s.Holds u) : (u.inner.map (·.id)).Nodup := by
  obtain ⟨t, ht, hut⟩ := hu
  have hnodup := hut.nodup_handles (nodup_handles_of_mem hs.sound.handles ht)
  rw [handles_eq, List.nodup_cons] at hnodup
  refine hnodup.2.sublist ?_
  generalize u.inner = inner
  induction inner with
  | nil => exact .slnil
  | cons c inner ih =>
    rw [List.map_cons, List.flatMap_cons, handles_eq, List.cons_append]
    exact (ih.trans (List.sublist_append_right _ _)).cons_cons _

theorem Cleaning.update_vacuum (hs : Cleaning s₁ s) : Cleaning s₁ (s.update h (·.vacuum)) := by
  have hid : ∀ t : SchemaType, (t.updateAt h (·.vacuum)).id = t.id :=
    read_updateAt (·.id) (fun t => (vacuum_shape t).1) fun _ _ => rfl
  have hqname : ∀ t : SchemaType, (t.updateAt h (·.vacuum)).qname = t.qname :=
    read_updateAt (·.qname) (fun t => (vacuum_shape t).2.1) fun _ _ => rfl
  have htag : ∀ t : SchemaType, (t.updateAt h (·.vacuum)).tag = t.tag :=
    read_updateAt (·.tag) (fun t => (vacuum_shape t).2.2.1) fun _ _ => rfl
  have houtline : (s.update h (·.vacuum)).roots.map Entry.outline = s.roots.map Entry.outline := by
    rw [roots_update, List.map_map]
    refine List.map_congr_left fun e _ => ?_
    simp only [Function.comp_apply, Entry.outline, hid, hqname, htag]
  refine ⟨hs.sound.of_outline houtline ?_ rfl rfl rfl, hs.keys.update h _, hs.nextHandle,
    houtline.trans hs.outline, ?_⟩
  · unfold Store.handles types
    rw [roots_update, List.map_map, List.flatMap_map, List.flatMap_map]
    generalize s.roots = roots
    induction roots with
    | nil => exact .slnil
    | cons e roots ih =>
      rw [List.flatMap_cons, List.flatMap_cons]
      exact (handles_updateAt_sublist handles_vacuum_sublist e.type).append ih
  · rintro v ⟨t', ht', hv⟩
    rw [types_update] at ht'
    obtain ⟨t, ht, rfl⟩ := List.mem_map.mp ht'
    obtain ⟨u, hu, rfl⟩ | ⟨u, hu, rfl, c, hc, hvc⟩ := within_of_updateAt hv
    · have hu : s.Holds u := ⟨t, ht, hu⟩
      obtain ⟨t₁, ht₁, htraced⟩ := hs.traced hu
      refine ⟨t₁, ht₁, ?_⟩
      by_cases htarget : u.id = h
      · rw [updateAt_of_eq htarget]
        exact htraced.vacuum (hs.nodup_inner hu)
      · -- the inner types of another type are there as they were
        rw [updateAt_of_ne htarget]
        refine ⟨htraced.id, ?_, fun l hl => ?_, htraced.deep⟩
        · rw [withInner_inner, List.map_map]
          refine List.Subset.trans (List.Perm.subset (.of_eq ?_)) htraced.inner
          exact List.map_congr_left fun c _ => hid c
        · obtain hdependency | ⟨hforward, c, hc, hcid, hname⟩ | hdeep := htraced.links l hl
          · exact .inl hdependency
          · refine .inr (.inl ⟨hforward, _, List.mem_map_of_mem hc, ?_, ?_⟩)
            · exact (hid c).trans hcid
            · exact (hqname c).trans hname
          · exact .inr (.inr hdeep)
    · -- below the target there is less than there was
      have hu : s.Holds u := ⟨t, ht, hu⟩
      obtain ⟨-, -, -, hinner⟩ := vacuum_shape u
      obtain ⟨d, hd, heq⟩ := List.mem_map.mp (hinner.subset (List.mem_map_of_mem hc))
      have hdu := hu.within (.inner hd .self)
      simp only [core, Prod.mk.injEq] at heq
      obtain ⟨hid, hinner, hlinks⟩ := heq
      cases hvc with
      | self =>
        obtain ⟨t₁, ht₁, htraced⟩ := hs.traced hdu
        refine ⟨t₁, ht₁, hid ▸ htraced.id, hinner ▸ htraced.inner, ?_, hlinks ▸ htraced.deep⟩
        rw [← hinner, ← hlinks]
        exact htraced.links
      | inner hc' hvc => exact hs.traced (hdu.within (.inner (hinner ▸ hc') hvc))

theorem Cleaning.recast {s' : Store} (hs : Cleaning s₁ s) (h : Recast Same s s') (hsound : s'.Sound)
    (hkeys : s'.KeysBelow) (hnext : s'.nextHandle = s.nextHandle) : Cleaning s₁ s' := by
  refine ⟨hsound, hkeys, hnext.trans hs.nextHandle, h.outline.trans hs.outline, fun u' hu' => ?_⟩
  obtain ⟨u, hu, hcounter, hlinks⟩ := h.back hu'
  obtain ⟨t, ht, htraced⟩ := hs.traced hu
  refine ⟨t, ht, hcounter.id.trans htraced.id, hcounter.map_id_inner ▸ htraced.inner, fun l hl => ?_,
    fun l hdeep => (hlinks l).mpr (htraced.deep l hdeep)⟩
  obtain hdependency | ⟨hforward, c, hc, hid, hqname⟩ | hdeep := htraced.links l ((hlinks l).mp hl)
  · exact .inl hdependency
  · obtain ⟨c', hc', hid', hqname'⟩ := hcounter.mem_inner hc
    exact .inr (.inl ⟨hforward, c', hc', hid'.trans hid, hqname'.trans hqname⟩)
  · exact .inr (.inr hdeep)

theorem Cleaning.setAside (hs : Cleaning s₁ s) (ts : List SchemaType) : Cleaning s₁ (s.setAside ts) := by
  have hbelow := hs.keys.setAside ts
  obtain ⟨aside, nextKey, heq, -⟩ := s.setAside_eq ts
  rw [heq] at hbelow ⊢
  exact ⟨⟨hs.sound.keys, hs.sound.handles, hs.sound.below, hs.sound.byName, hs.sound.byHandle⟩, hbelow,
    hs.nextHandle, hs.outline, hs.traced⟩

/-- A clean-up as something to be kept up. -/
def cleaning (s₁ : Store) : Upkeep :=
  .always (Cleaning s₁) fun _ _ _ hs =>
    ⟨⟨hs.sound.keys, hs.sound.handles, hs.sound.below, hs.sound.byName, hs.sound.byHandle⟩, hs.keys,
      hs.nextHandle, hs.outline, hs.traced⟩

theorem admits_cleaning (s₁ : Store) : (cleaning s₁).Admits Same where
  nodup hs := Sound.handles (Cleaning.sound hs)
  seek _ := trivial
  update {s h g} hs hg hlinks := by
    have hs : Cleaning s₁ s := hs
    have hrecast := recast_update hs.sound.handles hg (fun _ _ => Iff.rfl) hlinks
    exact ⟨hs.recast hrecast (hs.sound.update_alike hg) (hs.keys.update _ _) rfl, trivial⟩

theorem passes_cleanup (s₁ : Store) : (cleaning s₁).Passes .cleanup where
  prepare pass hpass s hs := by
    obtain rfl := List.mem_singleton.mp hpass
    exact .pure hs trivial
  run pass hpass _ rounds finder _ := by
    obtain rfl := List.mem_singleton.mp hpass
    intro s h hs _
    refine Upkeep.typeOf_bind fun t _ => .bind (Q := fun _ _ => True) ?_ fun _ s' hs' _ _ => ?_
    · exact .update (Cleaning.update_vacuum hs) trivial trivial
    · exact Upkeep.typeOf_bind fun u _ => .modify (Cleaning.setAside hs' _) trivial trivial
  begins := (admits_cleaning s₁).works_setStatus (fun _ _ => Iff.rfl) _
  ends := (admits_cleaning s₁).works_setStatus (fun _ _ => Iff.rfl) _

-- ---------------------------------------------------------------------------
-- What a clean-up leaves
-- ---------------------------------------------------------------------------

/-- A clean-up spares the types that others refer to across several levels of nesting: if the type
that refers is left, so is the other, under its name. -/
def Spares (s₁ s₂ : Store) : Prop :=
  ∀ ⦃t⦄, s₁.Holds t → t.id ∈ s₂.handles → ∀ l, t.Deep l → s₂.Has l.target l.qname

theorem Direct.spares (hs : s₁.Direct) : s₁.Spares s₂ := by
  intro t ht _ l hdeep
  obtain ⟨c, hc, hid⟩ := hs ht l hdeep.1 hdeep.2.1
  exact absurd (hid ▸ List.mem_map_of_mem hc) hdeep.2.2

/-- Where the links lead after a clean-up. -/
theorem Cleaning.cases (hs : Cleaning s₁ s₂) (hanchored : s₁.Anchored) (hu : s₂.Holds u)
    (hl : l ∈ u.links) :
    (∃ t ∈ s₂.types, t.id = l.target ∧ t.qname = l.qname) ∨
      (∃ c ∈ u.inner, c.id = l.target ∧ c.qname = l.qname) ∨
        ∃ t, s₁.Holds t ∧ t.id = u.id ∧ t.Deep l := by
  obtain ⟨t₁, ht₁, htraced⟩ := hs.traced hu
  obtain ⟨hl, hforward⟩ | ⟨-, hbound⟩ | hdeep := htraced.links l hl
  · obtain ⟨t, ht, hid, hqname⟩ := hanchored.dependency ht₁ l hl hforward
    obtain ⟨t', ht', hid', hqname', -⟩ := exists_of_outline hs.outline.symm ht
    exact .inl ⟨t', ht', hid'.trans hid, hqname'.trans hqname⟩
  · exact .inr (.inl hbound)
  · exact .inr (.inr ⟨t₁, ht₁, htraced.id.symm, hdeep⟩)

theorem Cleaning.allBound_iff (hs : Cleaning s₁ s₂) (hnodup : s₁.handles.Nodup)
    (hanchored : s₁.Anchored) :
    s₂.AllBound ↔ s₁.Spares s₂ := by
  constructor
  · intro hall t ht hmem l hdeep
    obtain ⟨u, hu, hid⟩ := mem_handles_iff.mp hmem
    obtain ⟨t', ht', htraced⟩ := hs.traced hu
    obtain rfl := ht'.eq_of_id hnodup ht (htraced.id.symm.trans hid)
    exact hall hu l (htraced.deep l hdeep)
  · intro hspares u hu l hl
    obtain ⟨t, ht, hbound⟩ | ⟨c, hc, hbound⟩ | ⟨t, ht, hid, hdeep⟩ := hs.cases hanchored hu hl
    · exact ⟨t, holds_of_mem_types ht, hbound⟩
    · exact ⟨c, hu.within (.inner hc .self), hbound⟩
    · exact hspares ht (mem_handles_iff.mpr ⟨u, hu, hid.symm⟩) l hdeep

end Store

end Schemata

-- ---------------------------------------------------------------------------
-- Settled links
-- ---------------------------------------------------------------------------

namespace Schemata.Store

open SchemaType

variable {s s' s₁ s₂ : Store} {b : Prop} {u : SchemaType} {l : Link}

/-- All links are bound if and only if `b` holds, and none is bound by a name or handle to come. -/
structure Settled (b : Prop) (s : Store) : Prop where
  sound : s.Sound
  keys : s.KeysBelow
  positive : 0 < s.nextHandle
  below : ∀ ⦃u⦄, s.Holds u → ∀ l ∈ u.links, l.target < s.nextHandle
  named : ∀ ⦃u⦄, s.Holds u → ∀ l ∈ u.links, ∀ t ∈ s.types, t.id = l.target → t.qname = l.qname
  allBound : s.AllBound ↔ b

theorem Cleaning.settled (hs : Cleaning s₁ s₂) (hs₁ : s₁.Sound) (hpositive : 0 < s₁.nextHandle)
    (hanchored : s₁.Anchored) : s₂.Settled (s₁.Spares s₂) where
  sound := hs.sound
  keys := hs.keys
  positive := hs.nextHandle ▸ hpositive
  below u hu l hl := by
    obtain ⟨t, ht, hid, -⟩ | ⟨c, hc, hid, -⟩ | ⟨t, ht, -, hdeep⟩ := hs.cases hanchored hu hl
    · exact hid ▸ hs.sound.below _ (mem_handles_iff.mpr ⟨t, holds_of_mem_types ht, rfl⟩)
    · exact hid ▸ hs.sound.below _ (mem_handles_iff.mpr ⟨c, hu.within (.inner hc .self), rfl⟩)
    · obtain ⟨c, hc, v, hv, hid, -⟩ := hanchored.forward ht l hdeep.1 hdeep.2.1
      rw [hs.nextHandle, ← hid]
      exact hs₁.below _ (mem_handles_iff.mpr ⟨v, ht.within (.inner hc hv), rfl⟩)
  named u hu l hl t ht hid := by
    obtain ⟨t', ht', hid', hqname⟩ | ⟨c, hc, hid', hqname⟩ | ⟨t', ht', -, hdeep⟩ :=
      hs.cases hanchored hu hl
    · obtain rfl := (holds_of_mem_types ht).eq_of_id hs.sound.handles (holds_of_mem_types ht')
        (hid.trans hid'.symm)
      exact hqname
    · obtain rfl := (holds_of_mem_types ht).eq_of_id hs.sound.handles
        (hu.within (.inner hc .self)) (hid.trans hid'.symm)
      exact hqname
    · -- the roots have kept their names
      obtain ⟨c, hc, v, hv, hvid, hqname⟩ := hanchored.forward ht' l hdeep.1 hdeep.2.1
      obtain ⟨t₁, ht₁, hid₁, hqname₁, -⟩ := exists_of_outline hs.outline ht
      obtain rfl := (holds_of_mem_types ht₁).eq_of_id hs₁.handles (ht'.within (.inner hc hv))
        (hid₁.trans (hid.trans hvid.symm))
      exact hqname₁.symm.trans hqname
  allBound := hs.allBound_iff hs₁.handles hanchored

theorem Settled.recast (hs : Settled b s) (h : Recast Same s s') (hsound : s'.Sound)
    (hkeys : s'.KeysBelow) (hnext : s'.nextHandle = s.nextHandle) : Settled b s' where
  sound := hsound
  keys := hkeys
  positive := hnext ▸ hs.positive
  below u' hu' l hl := by
    obtain ⟨u, hu, -, hlinks⟩ := h.back hu'
    exact hnext ▸ hs.below hu l ((hlinks l).mp hl)
  named u' hu' l hl t' ht' hid := by
    obtain ⟨u, hu, -, hlinks⟩ := h.back hu'
    obtain ⟨t, ht, hid', hqname, -⟩ := exists_of_outline h.outline ht'
    exact hqname ▸ hs.named hu l ((hlinks l).mp hl) t ht (hid'.trans hid)
  allBound := (allBound_iff_of_recast h).trans hs.allBound

theorem get?_of_mem_handles {h : Handle} {t : SchemaType} (hs : s.handles.Nodup) (hh : h ∈ s.handles)
    (ht : s.get? h = some t) : s.Holds t ∧ t.id = h := by
  obtain ⟨u, hu, rfl⟩ := mem_handles_iff.mp hh
  rw [get?_of_holds hs hu] at ht
  exact Option.some.inj ht ▸ ⟨hu, rfl⟩

/-- What has been settled, as something to be kept up. Types stay in the store, and only types of the
store are worked on. -/
def settling (b : Prop) : Upkeep where
  Inv := Settled b
  Leads s s' := s.handles ⊆ s'.handles ∧ s.roots.map (·.key) ⊆ s'.roots.map (·.key)
  Fit s h := h ∈ s.handles
  Seek _ _ := True
  Rest _ := True
  refl s := ⟨List.Subset.refl _, List.Subset.refl _⟩
  trans h h' := ⟨List.Subset.trans h.1 h'.1, List.Subset.trans h.2 h'.2⟩
  stays h hh := h.1 hh
  sought _ _ := trivial
  rests _ _ := trivial
  nested hs hh ht hu := by
    obtain ⟨ht, -⟩ := get?_of_mem_handles hs.sound.handles hh ht
    exact mem_handles_iff.mpr ⟨_, ht.within hu, rfl⟩
  found hs _ ht := by
    rw [hs.sound.lookup?_eq] at ht
    exact mem_handles_iff.mpr ⟨_, holds_of_mem_types (List.mem_of_find?_eq_some ht), rfl⟩
  swept _ hs' hleads _ he ht := by
    obtain ⟨e', he', hkey⟩ := List.mem_map.mp (hleads.2 (List.mem_map_of_mem he))
    rw [← hkey, typeOfKey?_of_mem hs'.sound.keys he'] at ht
    exact mem_handles_iff.mpr ⟨_, holds_of_mem_types (List.mem_map_of_mem he'), congrArg (·.id)
      (Option.some.inj ht)⟩
  quiet _ _ _ hs :=
    ⟨⟨⟨hs.sound.keys, hs.sound.handles, hs.sound.below, hs.sound.byName, hs.sound.byHandle⟩, hs.keys,
      hs.positive, hs.below, hs.named, hs.allBound⟩, List.Subset.refl _, List.Subset.refl _⟩

theorem admits_settling (b : Prop) : (settling b).Admits Same where
  nodup hs := Sound.handles (Settled.sound hs)
  seek _ := trivial
  update {s h g} hs hg hlinks := by
    have hs : Settled b s := hs
    have hrecast := recast_update hs.sound.handles hg (fun _ _ => Iff.rfl) hlinks
    refine ⟨hs.recast hrecast (hs.sound.update_alike hg) (hs.keys.update _ _) rfl, ?_, ?_⟩
    · intro k hk
      obtain ⟨u, hu, rfl⟩ := mem_handles_iff.mp hk
      obtain ⟨u', hu', hcounter, -⟩ := hrecast.forth hu
      exact mem_handles_iff.mpr ⟨u', hu', hcounter.id⟩
    · rw [roots_update, List.map_map]
      exact List.Subset.refl _

end Schemata.Store
