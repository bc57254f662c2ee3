import Schemata.Proofs.Binding.Vacuum

/-!
# Wrapping of alternatives

An ambiguous choice is wrapped in a new type: its links move to the wrapper and it refers to the
wrapper instead. So the store has the links that it had and one to the wrapper, which is bound.
-/

namespace Schemata

open Compile SchemaType

variable {s s' : Store} {t u v w : SchemaType} {h : Handle} {b : Prop}

-- ---------------------------------------------------------------------------
-- Links that move
-- ---------------------------------------------------------------------------

/-- Links of which some have moved elsewhere, with a new one. -/
def Shifts (moved : List Link) (new : Link) (ls ls' : List Link) : Prop :=
  (∀ l ∈ ls', l ∈ ls ∨ l = new) ∧ ∀ l ∈ ls, l ∈ ls' ∨ l ∈ moved

namespace Shifts

variable {moved : List Link} {new : Link}

theorem refl (ls : List Link) : Shifts moved new ls ls :=
  ⟨fun _ hl => .inl hl, fun _ hl => .inl hl⟩

theorem append {ls₁ ls₁' ls₂ ls₂' : List Link} (h₁ : Shifts moved new ls₁ ls₁')
    (h₂ : Shifts moved new ls₂ ls₂') : Shifts moved new (ls₁ ++ ls₂) (ls₁' ++ ls₂') := by
  constructor
  · intro l hl
    obtain hl | hl := List.mem_append.mp hl
    · exact (h₁.1 l hl).imp_left (List.mem_append_left _)
    · exact (h₂.1 l hl).imp_left (List.mem_append_right _)
  · intro l hl
    obtain hl | hl := List.mem_append.mp hl
    · exact (h₁.2 l hl).imp_left (List.mem_append_left _)
    · exact (h₂.2 l hl).imp_left (List.mem_append_right _)

theorem modify {fs : List Field} {i : Nat} {g : Field → Field}
    (hg : ∀ f, fs[i]? = some f → Shifts moved new f.links (g f).links) :
    Shifts moved new (fs.flatMap Field.links) ((fs.modify i g).flatMap Field.links) := by
  induction fs generalizing i with
  | nil =>
    rw [List.modify_nil]
    exact refl _
  | cons f fs ih =>
    cases i with
    | zero =>
      rw [List.modify_zero_cons, List.flatMap_cons, List.flatMap_cons]
      exact (hg f rfl).append (refl _)
    | succ i =>
      rw [List.modify_succ_cons, List.flatMap_cons, List.flatMap_cons]
      exact (refl _).append (ih fun f' hf' => hg f' hf')

end Shifts

/-- The choice of a field of a type at a position. -/
def SchemaType.choiceAt (t : SchemaType) (i j : Nat) : Field :=
  (t.fields[i]?.getD {}).choices[j]?.getD {}

/-- Lets a choice refer to another type. -/
def SchemaType.referAt (i j : Nat) (ft : FieldType) (t : SchemaType) : SchemaType :=
  { t with fields := t.fields.modify i fun f =>
      { f with choices := f.choices.modify j (·.referTo ft) } }

namespace SchemaType

theorem shifts_referAt {i j : Nat} {ft : FieldType} {new : Link} (hft : ft.link? = some new)
    (t : SchemaType) :
    Shifts ((t.choiceAt i j).types.filterMap FieldType.link?) new t.links (t.referAt i j ft).links := by
  rw [links_eq, links_eq]
  refine .append (.modify fun f hf => ?_) (.refl _)
  rw [Field.links_eq, Field.links_eq]
  refine .append (.refl _) (.modify fun c hc => ?_)
  have hchoice : t.choiceAt i j = c := by simp [choiceAt, hf, hc]
  rw [hchoice, Field.links_eq, Field.links_eq]
  refine .append ⟨?_, fun l hl => .inr hl⟩ (.refl _)
  simp [Field.referTo, hft]

theorem links_choiceAt_subset (t : SchemaType) (i j : Nat) :
    (t.choiceAt i j).types.filterMap FieldType.link? ⊆ t.links := by
  unfold choiceAt
  cases hf : t.fields[i]? with
  | none => simp
  | some f =>
    cases hc : f.choices[j]? with
    | none => simp [hc]
    | some c =>
      intro l hl
      simp only [Option.getD_some, hc] at hl
      rw [links_eq]
      refine List.mem_append_left _ (List.mem_flatMap.mpr ⟨f, List.mem_of_getElem? hf, ?_⟩)
      rw [Field.links_eq]
      refine List.mem_append_right _ (List.mem_flatMap.mpr ⟨c, List.mem_of_getElem? hc, ?_⟩)
      rw [Field.links_eq]
      exact List.mem_append_left _ hl

/-- The links of a wrapper are those of the choice. -/
theorem links_wrapper {choice : Field} (hfields : w.fields = choice.wrappedValue?.toList)
    (hextensions : w.extensions = (choice.types.filter (!·.native)).map fun ft =>
      { tag := .extension, type := ft }) : w.links = choice.types.filterMap FieldType.link? := by
  have hvalue : choice.wrappedValue?.toList.flatMap Field.links = [] := by
    unfold Field.wrappedValue?
    split
    · rfl
    · have hnatives : (choice.types.filter (·.native)).filterMap FieldType.link? = [] := by
        refine List.filterMap_eq_nil_iff.mpr fun ft hft => ?_
        simp [FieldType.link?, (List.mem_filter.mp hft).2]
      simp [Field.links_eq, hnatives]
  rw [links_eq, hfields, hvalue, List.nil_append, hextensions, List.filterMap_map, List.filterMap_filter]
  refine List.filterMap_congr fun ft _ => ?_
  cases hnative : ft.native with
  | false => simp
  | true => simp [FieldType.link?, hnative]

end SchemaType

-- ---------------------------------------------------------------------------
-- A store with a wrapper
-- ---------------------------------------------------------------------------

namespace Store

/-- A store after a wrapper has taken over links of one of its types. -/
structure Wraps (w : SchemaType) (s s' : Store) : Prop where
  sound : s'.Sound
  keys : s'.KeysBelow
  nextHandle : s'.nextHandle = s.nextHandle + 1
  forth : ∀ ⦃u⦄, s.Holds u → ∃ u', s'.Holds u' ∧ u'.id = u.id ∧ u'.qname = u.qname ∧
    ∀ l ∈ u.links, l ∈ u'.links ∨ l ∈ w.links
  back : ∀ ⦃u'⦄, s'.Holds u' → u' = w ∨ ∃ u, s.Holds u ∧ u'.id = u.id ∧ u'.qname = u.qname ∧
    ∀ l ∈ u'.links, l ∈ u.links ∨ (l.target = w.id ∧ l.qname = w.qname)
  wrapper : s'.Holds w
  id : w.id = s.nextHandle
  links : ∃ u, s.Holds u ∧ w.links ⊆ u.links
  roots : ∀ t ∈ s'.types, t = w ∨ ∃ t₀ ∈ s.types, t₀.id = t.id ∧ t₀.qname = t.qname
  rootKeys : s.roots.map (·.key) ⊆ s'.roots.map (·.key)

theorem Settled.wraps (hs : Settled b s) (h : Wraps w s s') : Settled b s' := by
  obtain ⟨owner, howner, hmoved⟩ := h.links
  -- a link of the new store is an old one or leads to the wrapper
  have hlinks : ∀ ⦃u'⦄, s'.Holds u' → ∀ l ∈ u'.links,
      (∃ u, s.Holds u ∧ l ∈ u.links) ∨ (l.target = w.id ∧ l.qname = w.qname) := by
    intro u' hu' l hl
    obtain rfl | ⟨u, hu, -, -, hold⟩ := h.back hu'
    · exact .inl ⟨owner, howner, hmoved hl⟩
    · exact (hold l hl).imp_left fun hl => ⟨u, hu, hl⟩
  have hnew : ∀ ⦃u⦄, s.Holds u → u.id ≠ w.id := fun u hu hid =>
    Int.lt_irrefl _ (h.id ▸ hid ▸ hs.sound.below _ (mem_handles_iff.mpr ⟨u, hu, rfl⟩))
  refine ⟨h.sound, h.keys, ?_, fun u' hu' l hl => ?_, fun u' hu' l hl t ht hid => ?_, ?_⟩
  · rw [h.nextHandle]
    exact Int.lt_trans hs.positive (Int.lt_succ _)
  · rw [h.nextHandle]
    obtain ⟨u, hu, hl⟩ | ⟨htarget, -⟩ := hlinks hu' l hl
    · exact Int.lt_trans (hs.below hu l hl) (Int.lt_succ _)
    · rw [htarget, h.id]
      exact Int.lt_succ _
  · obtain ⟨u, hu, hl⟩ | ⟨htarget, hqname⟩ := hlinks hu' l hl
    · obtain rfl | ⟨t₀, ht₀, hid₀, hqname₀⟩ := h.roots t ht
      · have hbelow := hs.below hu l hl
        rw [← hid, h.id] at hbelow
        exact absurd hbelow (Int.lt_irrefl _)
      · exact hqname₀ ▸ hs.named hu l hl t₀ ht₀ (hid₀.trans hid)
    · obtain rfl | ⟨t₀, ht₀, hid₀, -⟩ := h.roots t ht
      · exact hqname.symm
      · exact absurd (hid₀.trans (hid.trans htarget)) (hnew (holds_of_mem_types ht₀))
  · refine Iff.trans ?_ hs.allBound
    constructor
    · intro hall u hu l hl
      obtain ⟨u', hu', -, -, hkept⟩ := h.forth hu
      have hhas : s'.Has l.target l.qname := by
        obtain hl | hl := hkept l hl
        · exact hall hu' l hl
        · exact hall h.wrapper l hl
      obtain ⟨v', hv', hid, hqname⟩ := hhas
      obtain rfl | ⟨v, hv, hid', hqname', -⟩ := h.back hv'
      · have hbelow := hs.below hu l hl
        rw [← hid, h.id] at hbelow
        exact absurd hbelow (Int.lt_irrefl _)
      · exact ⟨v, hv, hid'.symm.trans hid, hqname'.symm.trans hqname⟩
    · intro hall u' hu' l hl
      obtain ⟨u, hu, hl⟩ | ⟨htarget, hqname⟩ := hlinks hu' l hl
      · obtain ⟨v, hv, hid, hqname⟩ := hall hu l hl
        obtain ⟨v', hv', hid', hqname', -⟩ := h.forth hv
        exact ⟨v', hv', hid'.trans hid, hqname'.trans hqname⟩
      · exact ⟨w, h.wrapper, htarget.symm, hqname.symm⟩

theorem Wraps.leads (h : Wraps w s s') : (settling b).Leads s s' := by
  refine ⟨fun k hk => ?_, h.rootKeys⟩
  obtain ⟨u, hu, rfl⟩ := mem_handles_iff.mp hk
  obtain ⟨u', hu', hid, -⟩ := h.forth hu
  exact mem_handles_iff.mpr ⟨u', hu', hid⟩

/-- A wrapper comes in and the type with a handle is changed, in one or two steps. -/
theorem wraps_update {s₂ : Store} {g : SchemaType → SchemaType} {extra : List SchemaType} {new : Link}
    (hs₂ : s₂.handles.Nodup) (hheld : ∀ u, s.Holds u → s₂.Holds u)
    (hback : ∀ u, s₂.Holds u → s.Holds u ∨ u = w) (htypes : ∀ t ∈ s₂.types, t = w ∨ t ∈ s.types)
    (hg : Extends g extra) (hextra : ∀ x ∈ extra, x = w) (ht : s.Holds t) (hid : t.id = h)
    (hs : s.handles.Nodup) (hshifts : Shifts w.links new t.links (g t).links)
    (hnew : new.target = w.id ∧ new.qname = w.qname) (hw : w.id = s.nextHandle) (hwh : w.id ≠ h)
    (hinner : w.inner = []) (hmoved : w.links ⊆ t.links)
    (hsound : (s₂.update h g).Sound) (hkeys : (s₂.update h g).KeysBelow)
    (hnext : (s₂.update h g).nextHandle = s.nextHandle + 1) (hwrapper : (s₂.update h g).Holds w)
    (hrootKeys : s.roots.map (·.key) ⊆ (s₂.update h g).roots.map (·.key)) :
    Wraps w s (s₂.update h g) := by
  have hsame : w.updateAt h g = w := by
    rw [updateAt_of_ne hwh, hinner, List.map_nil, ← hinner, withInner_self]
  have hlinks : ∀ u, s.Holds u → Shifts w.links new u.links (u.updateAt h g).links := by
    intro u hu
    by_cases huid : u.id = h
    · obtain rfl := hu.eq_of_id hs ht (huid.trans hid.symm)
      rw [updateAt_of_eq huid]
      exact hshifts
    · rw [updateAt_of_ne huid]
      exact .refl _
  refine ⟨hsound, hkeys, hnext, fun u hu => ?_, fun u' hu' => ?_, hwrapper, hw, ⟨t, ht, hmoved⟩,
    fun t' ht' => ?_, hrootKeys⟩
  · exact ⟨u.updateAt h g, holds_update hg hs₂ (hheld u hu), hg.widens.updateAt_id u, hg.updateAt_qname u,
      (hlinks u hu).2⟩
  · obtain ⟨u, hu, rfl⟩ | ⟨x, hx, hu'⟩ := holds_of_update hg hs₂ hu'
    · obtain hu | rfl := hback u hu
      · refine .inr ⟨u, hu, hg.widens.updateAt_id u, hg.updateAt_qname u, fun l hl => ?_⟩
        obtain hl | rfl := (hlinks u hu).1 l hl
        · exact .inl hl
        · exact .inr hnew
      · exact .inl hsame
    · obtain rfl := hextra x hx
      cases hu' with
      | self => exact .inl rfl
      | inner hc => exact absurd (hinner ▸ hc) List.not_mem_nil
  · rw [types_update] at ht'
    obtain ⟨t₀, ht₀, rfl⟩ := List.mem_map.mp ht'
    obtain rfl | ht₀ := htypes t₀ ht₀
    · exact .inl hsame
    · exact .inr ⟨t₀, ht₀, (hg.widens.updateAt_id t₀).symm, (hg.updateAt_qname t₀).symm⟩

variable {i j : Nat} {ft : FieldType} {p : Bool}

theorem extends_referAt (i j : Nat) (ft : FieldType) : Extends (referAt i j ft) [] :=
  ⟨fun _ => rfl, fun _ => rfl, fun _ => rfl, fun _ => (List.append_nil _).symm⟩

theorem wraps_inner (hs : Settled b s) (ht : s.Holds t) (hid : w.id = s.nextHandle)
    (hinner : w.inner = []) (hlinks : w.links = (t.choiceAt i j).types.filterMap FieldType.link?)
    (hft : ft.link? = some ⟨p, w.id, w.qname⟩) :
    Wraps w s (({ s with nextHandle := s.nextHandle + 1 }.update t.id fun u =>
      { u with inner := u.inner ++ [w] }).update t.id (referAt i j ft)) := by
  rw [update_update (f := fun u => { u with inner := u.inner ++ [w] }) fun _ => rfl]
  have hg : Extends (referAt i j ft ∘ fun u => { u with inner := u.inner ++ [w] }) [w] :=
    ⟨fun _ => rfl, fun _ => rfl, fun _ => rfl, fun _ => rfl⟩
  have hth : t.id ∈ s.handles := mem_handles_iff.mpr ⟨t, ht, rfl⟩
  have hne : w.id ≠ t.id := fun heq => Int.lt_irrefl _ (hid ▸ heq ▸ hs.sound.below _ hth)
  have hnumbered : Numbered ([w].flatMap SchemaType.handles) s.nextHandle (s.nextHandle + 1) := by
    rw [List.flatMap_cons, List.flatMap_nil, List.append_nil, handles_eq, hinner, List.flatMap_nil, hid]
    exact .single _
  refine wraps_update hs.sound.handles (fun _ hu => hu) (fun _ hu => .inl hu) (fun _ ht => .inr ht) hg
    (fun x hx => List.mem_singleton.mp hx) ht rfl hs.sound.handles (hlinks ▸ shifts_referAt hft t)
    ⟨rfl, rfl⟩ hid hne hinner (hlinks ▸ links_choiceAt_subset t i j) (hs.sound.update hg hth hnumbered)
    (KeysBelow.update hs.keys _ _) rfl ?_ ?_
  · have hchanged := holds_update (h := t.id) hg hs.sound.handles ht
    rw [updateAt_of_eq rfl] at hchanged
    exact hchanged.within (.inner (List.mem_append_right _ List.mem_cons_self) .self)
  · rw [roots_update, List.map_map]
    exact List.Subset.refl _

theorem wraps_root (hs : Settled b s) (ht : s.Holds t) (hid : w.id = s.nextHandle)
    (hinner : w.inner = []) (hlinks : w.links = (t.choiceAt i j).types.filterMap FieldType.link?)
    (hft : ft.link? = some ⟨p, w.id, w.qname⟩) :
    Wraps w s (({ s with nextHandle := s.nextHandle + 1 }.insert w).update t.id (referAt i j ft)) := by
  have hhandles : w.handles = [s.nextHandle] := by
    rw [handles_eq, hinner, List.flatMap_nil, hid]
  have hzero : 0 ∉ w.handles := by
    rw [hhandles, List.mem_singleton]
    exact Int.ne_of_lt hs.positive
  have hth : t.id ∈ s.handles := mem_handles_iff.mpr ⟨t, ht, rfl⟩
  have hne : w.id ≠ t.id := fun heq => Int.lt_irrefl _ (hid ▸ heq ▸ hs.sound.below _ hth)
  have heq := insert_eq (s := { s with nextHandle := s.nextHandle + 1 }) hs.keys w
  rw [assignHandles_of_handles hzero] at heq
  have hsound : ({ s with nextHandle := s.nextHandle + 1 }.insert w).Sound := by
    rw [heq]
    exact hs.sound.append hs.keys (hhandles ▸ .single _)
  have hroots : ({ s with nextHandle := s.nextHandle + 1 }.insert w).roots =
      s.roots ++ [⟨s.nextKey, w⟩] := by
    rw [heq]
  have htypes : ({ s with nextHandle := s.nextHandle + 1 }.insert w).types = s.types ++ [w] := by
    rw [types, hroots, List.map_append]
    rfl
  have hkeys : ({ s with nextHandle := s.nextHandle + 1 }.insert w).KeysBelow :=
    KeysBelow.insert (s := { s with nextHandle := s.nextHandle + 1 }) hs.keys w
  have hwrapper : ({ s with nextHandle := s.nextHandle + 1 }.insert w).Holds w :=
    holds_of_mem_types (htypes ▸ List.mem_append_right _ List.mem_cons_self)
  refine wraps_update hsound.handles ?_ ?_ ?_ (extends_referAt i j ft)
    (fun _ hx => absurd hx List.not_mem_nil) ht rfl hs.sound.handles
    (hlinks ▸ shifts_referAt hft t) ⟨rfl, rfl⟩ hid hne hinner (hlinks ▸ links_choiceAt_subset t i j)
    (hsound.update_alike fun _ _ _ => ⟨rfl, rfl, rfl, rfl⟩) (hkeys.update _ _) ?_ ?_ ?_
  · rintro u ⟨t', ht', hu⟩
    exact ⟨t', htypes ▸ List.mem_append_left _ ht', hu⟩
  · rintro u ⟨t', ht', hu⟩
    rw [htypes, List.mem_append, List.mem_singleton] at ht'
    obtain ht' | rfl := ht'
    · exact .inl ⟨t', ht', hu⟩
    · cases hu with
      | self => exact .inr rfl
      | inner hc => exact absurd (hinner ▸ hc) List.not_mem_nil
  · intro t' ht'
    rw [htypes, List.mem_append, List.mem_singleton] at ht'
    exact ht'.symm
  · change (insert _ w).nextHandle = _
    rw [heq]
  · have hchanged := holds_update (h := t.id) (extends_referAt i j ft) hsound.handles hwrapper
    rwa [updateAt_of_ne hne, hinner, List.map_nil, ← hinner, withInner_self] at hchanged
  · rw [roots_update, List.map_map, hroots, List.map_append]
    exact List.subset_append_left _ _

end Store

-- ---------------------------------------------------------------------------
-- The pass
-- ---------------------------------------------------------------------------

open Store

theorem keeps_wrapChoice (i j : Nat) (hs : Store.Settled b s) (hh : h ∈ s.handles) :
    (settling b).conduct.Runs (wrapChoice h i j) s fun _ s' => h ∈ s'.handles := by
  have hend : ∀ {w s'}, Wraps w s s' →
      (settling b).Inv s' ∧ (settling b).Leads s s' ∧ h ∈ s'.handles :=
    fun hwraps => ⟨hs.wraps hwraps, hwraps.leads, (settling b).stays hwraps.leads hh⟩
  unfold wrapChoice
  refine Upkeep.typeOf_bind fun t ht => Upkeep.fieldOf_bind fun t' ht' => ?_
  obtain rfl : t = t' := Option.some.inj (ht.symm.trans ht')
  obtain ⟨howner, rfl⟩ := get?_of_mem_handles hs.sound.handles hh ht
  unfold Conduct.Runs
  rw [wp_bind, wp_modifyGet, wp_bind, wp_get]
  split
  · rw [wp_bind, wp_get, wp_bind, wp_modify]
    unfold updateField
    rw [wp_update]
    refine hend (wraps_root (p := false) hs howner rfl rfl ?_ rfl)
    exact links_wrapper rfl rfl
  · rw [wp_bind, wp_update]
    unfold updateField
    rw [wp_update]
    refine hend (wraps_inner (p := true) hs howner rfl rfl ?_ rfl)
    exact links_wrapper rfl rfl

theorem works_separateAlternatives {rounds : Nat} {finder : Finder} :
    (settling b).Works (Pass.separateAlternatives.run rounds finder) := by
  intro s h hs hh
  refine Upkeep.typeOf_bind fun t _ => .mono (Q := fun _ s => h ∈ s.handles) ?_ fun _ _ _ _ _ => trivial
  refine .forM _ (fun i _ s hs hh => Upkeep.fieldOf_bind fun t _ => ?_) hs hh
  split
  · exact .forM _ (fun j _ s hs hh => keeps_wrapChoice i j hs hh) hs hh
  · exact .pure hs hh

theorem passes_compound (b : Prop) : (settling b).Passes .compound where
  prepare pass hpass s hs := by
    simp only [Step.compound, List.mem_cons, List.not_mem_nil, or_false] at hpass
    obtain rfl | rfl := hpass
    · exact .pure hs trivial
    · exact .pure hs trivial
  run pass hpass _ rounds finder _ := by
    simp only [Step.compound, List.mem_cons, List.not_mem_nil, or_false] at hpass
    obtain rfl | rfl := hpass
    · refine (admits_settling b).works_noting (fun s t => ?_) fun s t l => ?_
      · unfold Store.compoundFields
        split
        · exact ⟨rfl, rfl, rfl, rfl⟩
        · exact ⟨rfl, rfl, rfl, rfl⟩
      · unfold Store.compoundFields
        split
        · exact mem_links_compound
        · exact Iff.rfl
    · exact works_separateAlternatives
  begins := (admits_settling b).works_setStatus (fun _ _ => Iff.rfl) _
  ends := (admits_settling b).works_setStatus (fun _ _ => Iff.rfl) _

end Schemata
