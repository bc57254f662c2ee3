import Schemata.Proofs.Model.Links
import Schemata.Proofs.Output.Integrity
import Schemata.Proofs.Store.Sound

/-!
# Bound links

A link is bound when a type that the store holds has its handle and its name. Dependencies are
anchored in roots and forward links in types nested in the type that has them. A change of a type
that keeps what it is called and what is nested in it can unbind nothing but what it adds.
-/

namespace Schemata

open SchemaType

variable {types : List SchemaType} {h : Handle} {q : QName}

/-- As long as handles differ a handle stands for the name of the type that has it. -/
theorem nameOf?_eq_some_iff (hnodup : ((walkAll types).map (·.id)).Nodup) :
    (Forest.ofTypes types).nameOf? h = some q ↔ ∃ u ∈ walkAll types, u.id = h ∧ u.qname = q := by
  have hfacts := map_facts_walkAll types 0
  have hhandles := congrArg (List.map (·.1)) hfacts
  have hnames := congrArg (List.map fun f => (f.1, f.2.1)) hfacts
  rw [List.map_map, List.map_map] at hhandles hnames
  rw [Forest.nameOf?_eq_some_iff (hhandles ▸ hnodup)]
  have hmem : (h, q) ∈ ((Forest.ofTypes types).roots |> TypePart.walkAll).map
      (fun p => (p.handle, p.qname)) ↔ (h, q) ∈ (walkAll types).map fun u => (u.id, u.qname) :=
    iff_of_eq (congrArg _ hnames)
  simpa only [List.mem_map, Prod.mk.injEq] using hmem

namespace Store

variable {s s' : Store} {t u v : SchemaType} {l : Link} {g : SchemaType → SchemaType}

/-- The store holds a type of a handle under a name. -/
def Has (s : Store) (h : Handle) (q : QName) : Prop :=
  ∃ v, s.Holds v ∧ v.id = h ∧ v.qname = q

/-- Every link is bound. -/
def AllBound (s : Store) : Prop :=
  ∀ ⦃u⦄, s.Holds u → ∀ l ∈ u.links, s.Has l.target l.qname

/-- Dependencies lead to roots and forward links to nested types, under their names. -/
structure Anchored (s : Store) : Prop where
  dependency : ∀ ⦃u⦄, s.Holds u → ∀ l ∈ u.links, l.forward = false →
    ∃ t ∈ s.types, t.id = l.target ∧ t.qname = l.qname
  forward : ∀ ⦃u⦄, s.Holds u → ∀ l ∈ u.links, l.forward = true →
    ∃ c ∈ u.inner, ∃ v, Within v c ∧ v.id = l.target ∧ v.qname = l.qname

/-- Forward links lead to types that are directly nested. -/
def Direct (s : Store) : Prop :=
  ∀ ⦃u⦄, s.Holds u → ∀ l ∈ u.links, l.forward = true → ∃ c ∈ u.inner, c.id = l.target

/-- The check of references accepts a store exactly when every link is bound. -/
theorem unbound?_eq_none_iff (hs : s.handles.Nodup) :
    (Forest.ofTypes s.types).unbound? = none ↔ s.AllBound := by
  rw [← map_id_walkAll] at hs
  have hbound : ∀ ft : FieldType, isBound (Forest.ofTypes s.types).nameOf? ft = true ↔
      ∀ l, ft.link? = some l → s.Has l.target l.qname := by
    intro ft
    simp only [isBound, Bool.or_eq_true, beq_iff_eq, nameOf?_eq_some_iff hs, FieldType.link?, Has,
      holds_iff_mem_walkAll]
    cases ft.native with
    | true => simp
    | false => simp
  have hfacts := map_facts_walkAll s.types 0
  simp only [Forest.unbound?, List.findSome?_eq_none_iff, Option.map_eq_none_iff, List.find?_eq_none,
    Bool.not_eq_true', Bool.not_eq_false, hbound]
  constructor
  · intro hall u hu l hl
    obtain ⟨ft, hft, hlink⟩ := mem_links_iff.mp hl
    have hmem := List.mem_map_of_mem (f := fun u => (u.id, u.qname, u.fieldTypes))
      (holds_iff_mem_walkAll.mp hu)
    rw [← hfacts] at hmem
    obtain ⟨p, hp, heq⟩ := List.mem_map.mp hmem
    simp only [TypePart.facts, Prod.mk.injEq] at heq
    exact hall p hp ft (heq.2.2 ▸ hft) l hlink
  · intro hall p hp ft hft l hlink
    have hmem := List.mem_map_of_mem (f := TypePart.facts) hp
    rw [Forest.ofTypes, hfacts] at hmem
    obtain ⟨u, hu, heq⟩ := List.mem_map.mp hmem
    simp only [TypePart.facts, Prod.mk.injEq] at heq
    exact hall (holds_iff_mem_walkAll.mpr hu) l (mem_links_iff.mpr ⟨ft, heq.2.2 ▸ hft, hlink⟩)

theorem anchored_iff : s.Anchored ↔ ∀ u ∈ walkAll s.types, ∀ l ∈ u.links,
    if l.forward then ∃ v ∈ walkAll u.inner, v.id = l.target ∧ v.qname = l.qname
    else ∃ t ∈ s.types, t.id = l.target ∧ t.qname = l.qname := by
  simp only [mem_walkAll_iff]
  constructor
  · intro hs u hu l hl
    split
    case isTrue hforward =>
      obtain ⟨c, hc, v, hv, hbound⟩ := hs.forward hu l hl hforward
      exact ⟨v, ⟨c, hc, hv⟩, hbound⟩
    case isFalse hforward => exact hs.dependency hu l hl (Bool.not_eq_true _ ▸ hforward)
  · refine fun hall => ⟨fun u hu l hl hforward => ?_, fun u hu l hl hforward => ?_⟩
    · simpa [hforward] using hall u hu l hl
    · have hbound := hall u hu l hl
      rw [if_pos hforward] at hbound
      obtain ⟨v, ⟨c, hc, hv⟩, hbound⟩ := hbound
      exact ⟨c, hc, v, hv, hbound⟩

instance : Decidable s.Anchored :=
  decidable_of_iff _ anchored_iff.symm

instance : Decidable s.Direct :=
  decidable_of_iff (∀ u ∈ walkAll s.types, ∀ l ∈ u.links, l.forward = true → ∃ c ∈ u.inner, c.id = l.target)
    (by simp only [← holds_iff_mem_walkAll, Direct])

theorem Anchored.allBound (hs : s.Anchored) : s.AllBound := by
  intro u hu l hl
  cases hforward : l.forward with
  | false =>
    obtain ⟨t, ht, hid, hqname⟩ := hs.dependency hu l hl hforward
    exact ⟨t, holds_of_mem_types ht, hid, hqname⟩
  | true =>
    obtain ⟨c, hc, v, hv, hid, hqname⟩ := hs.forward hu l hl hforward
    exact ⟨v, hu.within (.inner hc hv), hid, hqname⟩

end Store

-- ---------------------------------------------------------------------------
-- Changes that keep types in their places
-- ---------------------------------------------------------------------------

namespace SchemaType

variable {t u v : SchemaType} {f g : SchemaType → SchemaType}

/-- A type that differs neither in what it is called nor in what is nested in it. -/
structure Alike (t u : SchemaType) : Prop where
  id : u.id = t.id
  qname : u.qname = t.qname
  tag : u.tag = t.tag
  inner : u.inner = t.inner

/-- What a type has become, with the same types nested in it under the same names. -/
structure Counterpart (t u : SchemaType) : Prop where
  id : u.id = t.id
  qname : u.qname = t.qname
  inner : u.inner.map (fun c => (c.id, c.qname)) = t.inner.map fun c => (c.id, c.qname)
  nested : ∀ ⦃c⦄, c ∈ t.inner → ∀ ⦃v⦄, Within v c →
    ∃ c' ∈ u.inner, ∃ v', Within v' c' ∧ v'.id = v.id ∧ v'.qname = v.qname

theorem Counterpart.mem_inner (h : Counterpart t u) {c : SchemaType} (hc : c ∈ t.inner) :
    ∃ c' ∈ u.inner, c'.id = c.id ∧ c'.qname = c.qname := by
  have hmem := List.mem_map_of_mem (f := fun c => (c.id, c.qname)) hc
  rw [← h.inner] at hmem
  obtain ⟨c', hc', heq⟩ := List.mem_map.mp hmem
  exact ⟨c', hc', congrArg (·.1) heq, congrArg (·.2) heq⟩

theorem Counterpart.map_id_inner (h : Counterpart t u) : u.inner.map (·.id) = t.inner.map (·.id) := by
  have hids := congrArg (List.map (·.1)) h.inner
  rwa [List.map_map, List.map_map] at hids

theorem inner_updateAt {h : Handle} (hg : Extends g []) (ht : t.handles.Nodup) :
    (t.updateAt h g).inner = t.inner.map (updateAt h g) := by
  rw [updateAt_eq]
  split
  case isTrue hid =>
    rw [hg.inner, List.append_nil]
    refine ((List.map_congr_left fun c hc => updateAt_of_not_mem fun hmem => ?_).trans
      (List.map_id _)).symm
    exact not_mem_handles_inner ht hc (hid ▸ hmem)
  case isFalse => rw [withInner_inner]

theorem handles_updateAt {h : Handle} (hg : Extends g []) (t : SchemaType) :
    (t.updateAt h g).handles = t.handles := by
  induction t using induct with
  | type t ih =>
    rw [updateAt_eq]
    split
    case isTrue => rw [handles_eq, handles_eq t, hg.id, hg.inner, List.append_nil]
    case isFalse =>
      rw [handles_eq, handles_eq t, withInner_id, withInner_inner, List.flatMap_map,
        List.flatMap_congr ih]

theorem counterpart_updateAt {h : Handle} (hg : Extends g []) (ht : t.handles.Nodup) :
    Counterpart t (t.updateAt h g) where
  id := hg.widens.updateAt_id t
  qname := hg.updateAt_qname t
  inner := by
    rw [inner_updateAt hg ht, List.map_map]
    refine List.map_congr_left fun c _ => ?_
    rw [Function.comp_apply, hg.widens.updateAt_id, hg.updateAt_qname]
  nested c hc v hv := by
    refine ⟨c.updateAt h g, inner_updateAt hg ht ▸ List.mem_map_of_mem hc, v.updateAt h g, ?_,
      hg.widens.updateAt_id v, hg.updateAt_qname v⟩
    exact hg.widens.within_updateAt (nodup_handles_inner ht hc) hv

end SchemaType

namespace Store

variable {s s' : Store} {t u v : SchemaType} {l : Link} {g : SchemaType → SchemaType}
  {P : List Link → List Link → Prop}

/-- Every type is where it was, under its name; its links have changed as `P` says. -/
structure Recast (P : List Link → List Link → Prop) (s s' : Store) : Prop where
  outline : s'.roots.map Entry.outline = s.roots.map Entry.outline
  forth : ∀ ⦃u⦄, s.Holds u → ∃ u', s'.Holds u' ∧ Counterpart u u' ∧ P u.links u'.links
  back : ∀ ⦃u'⦄, s'.Holds u' → ∃ u, s.Holds u ∧ Counterpart u u' ∧ P u.links u'.links

/-- No link is new. -/
def Fewer (ls ls' : List Link) : Prop :=
  ls' ⊆ ls

/-- The links are the same. -/
def Same (ls ls' : List Link) : Prop :=
  ∀ l, l ∈ ls' ↔ l ∈ ls

theorem Recast.has (h : Recast P s s') {h₀ : Handle} (hhas : s.Has h₀ q) : s'.Has h₀ q := by
  obtain ⟨v, hv, rfl, rfl⟩ := hhas
  obtain ⟨v', hv', hcounter, -⟩ := h.forth hv
  exact ⟨v', hv', hcounter.id, hcounter.qname⟩

theorem Recast.has_of (h : Recast P s s') {h₀ : Handle} (hhas : s'.Has h₀ q) : s.Has h₀ q := by
  obtain ⟨v', hv', rfl, rfl⟩ := hhas
  obtain ⟨v, hv, hcounter, -⟩ := h.back hv'
  exact ⟨v, hv, hcounter.id.symm, hcounter.qname.symm⟩

theorem Anchored.recast (hs : s.Anchored) (h : Recast Fewer s s') : s'.Anchored where
  dependency u' hu' l hl hforward := by
    obtain ⟨u, hu, -, hlinks⟩ := h.back hu'
    obtain ⟨t, ht, hid, hqname⟩ := hs.dependency hu l (hlinks hl) hforward
    obtain ⟨t', ht', hid', hqname', -⟩ := exists_of_outline h.outline.symm ht
    exact ⟨t', ht', hid'.trans hid, hqname'.trans hqname⟩
  forward u' hu' l hl hforward := by
    obtain ⟨u, hu, hcounter, hlinks⟩ := h.back hu'
    obtain ⟨c, hc, v, hv, hid, hqname⟩ := hs.forward hu l (hlinks hl) hforward
    obtain ⟨c', hc', v', hv', hid', hqname'⟩ := hcounter.nested hc hv
    exact ⟨c', hc', v', hv', hid'.trans hid, hqname'.trans hqname⟩

theorem Direct.recast (hs : s.Direct) (h : Recast Fewer s s') : s'.Direct := by
  intro u' hu' l hl hforward
  obtain ⟨u, hu, hcounter, hlinks⟩ := h.back hu'
  obtain ⟨c, hc, hid⟩ := hs hu l (hlinks hl) hforward
  obtain ⟨c', hc', hid', -⟩ := hcounter.mem_inner hc
  exact ⟨c', hc', hid'.trans hid⟩

theorem allBound_iff_of_recast (h : Recast Same s s') : s'.AllBound ↔ s.AllBound := by
  constructor
  · intro hall u hu l hl
    obtain ⟨u', hu', -, hlinks⟩ := h.forth hu
    exact h.has_of (hall hu' l ((hlinks l).mpr hl))
  · intro hall u' hu' l hl
    obtain ⟨u, hu, -, hlinks⟩ := h.back hu'
    exact h.has (hall hu l ((hlinks l).mp hl))

/-- What the links of a store say, and what they are bound to. -/
def facts (s : Store) : List (Handle × QName × List Link) :=
  (walkAll s.types).map fun u => (u.id, u.qname, u.links)

theorem handles_of_facts (h : s'.facts = s.facts) : s'.handles = s.handles := by
  have hids := congrArg (List.map (·.1)) h
  unfold facts at hids
  rw [List.map_map, List.map_map] at hids
  rw [← map_id_walkAll, ← map_id_walkAll]
  exact hids

theorem allBound_iff_of_facts (h : s'.facts = s.facts) : s'.AllBound ↔ s.AllBound := by
  have hheld : ∀ {s s' : Store}, s'.facts = s.facts → ∀ u, s.Holds u →
      ∃ u', s'.Holds u' ∧ u'.id = u.id ∧ u'.qname = u.qname ∧ u'.links = u.links := by
    intro s s' h u hu
    have hmem := List.mem_map_of_mem (f := fun u => (u.id, u.qname, u.links))
      (holds_iff_mem_walkAll.mp hu)
    change _ ∈ s.facts at hmem
    rw [← h] at hmem
    obtain ⟨u', hu', heq⟩ := List.mem_map.mp hmem
    simp only [Prod.mk.injEq] at heq
    exact ⟨u', holds_iff_mem_walkAll.mpr hu', heq⟩
  have hbound : ∀ {s s' : Store}, s'.facts = s.facts → s'.AllBound → s.AllBound := by
    intro s s' h hall u hu l hl
    obtain ⟨u', hu', -, -, hlinks⟩ := hheld h u hu
    obtain ⟨v', hv', hid, hqname⟩ := hall hu' l (hlinks ▸ hl)
    obtain ⟨v, hv, hid', hqname', -⟩ := hheld h.symm v' hv'
    exact ⟨v, hv, hid'.trans hid, hqname'.trans hqname⟩
  exact ⟨hbound h, hbound h.symm⟩

/-- A change at a handle is one at the type that has it, and nothing else matters. -/
theorem exists_extends_update (hs : s.handles.Nodup)
    (hg : ∀ u, s.Holds u → u.id = h → Alike u (g u)) :
    ∃ f, Extends f [] ∧ (s.update h g).roots = (s.update h f).roots ∧
      ∀ u, s.Holds u → u.id = h → f u = g u := by
  have hroots : ∀ f, (∀ u, s.Holds u → u.id = h → f u = g u) →
      (s.update h g).roots = (s.update h f).roots := by
    intro f hf
    rw [roots_update, roots_update]
    refine List.map_congr_left fun e he => ?_
    have heq : e.type.updateAt h g = e.type.updateAt h f :=
      updateAt_congr fun u hu hid => (hf u ⟨e.type, List.mem_map_of_mem he, hu⟩ hid).symm
    rw [heq]
  by_cases hh : h ∈ s.handles
  · obtain ⟨u, hu, hid⟩ := mem_handles_iff.mp hh
    refine ⟨fun v => { g u with id := v.id, qname := v.qname, tag := v.tag, inner := v.inner },
      ⟨fun _ => rfl, fun _ => rfl, fun _ => rfl, fun v => (List.append_nil _).symm⟩, ?_⟩
    have hagree : ∀ v, s.Holds v → v.id = h →
        { g u with id := v.id, qname := v.qname, tag := v.tag, inner := v.inner } = g v := by
      intro v hv hvid
      obtain rfl := hv.eq_of_id hs hu (hvid.trans hid.symm)
      have halike := hg v hv hvid
      rw [← halike.id, ← halike.qname, ← halike.tag, ← halike.inner]
      cases g v
      rfl
    exact ⟨hroots _ hagree, hagree⟩
  · have hnone : ∀ u, s.Holds u → u.id ≠ h := fun u hu hid => hh (mem_handles_iff.mpr ⟨u, hu, hid⟩)
    refine ⟨fun v => v, ⟨fun _ => rfl, fun _ => rfl, fun _ => rfl, fun v => (List.append_nil _).symm⟩,
      hroots _ fun u hu hid => absurd hid (hnone u hu), fun u hu hid => absurd hid (hnone u hu)⟩

theorem recast_update (hs : s.handles.Nodup) (hg : ∀ u, s.Holds u → u.id = h → Alike u (g u))
    (hP : ∀ ls, P ls ls) (hlinks : ∀ u, s.Holds u → u.id = h → P u.links (g u).links) :
    Recast P s (s.update h g) := by
  obtain ⟨f, hf, hroots, hagree⟩ := exists_extends_update hs hg
  have htypes : (s.update h g).types = (s.update h f).types := congrArg (List.map Entry.type) hroots
  have hholds : ∀ u, (s.update h g).Holds u ↔ (s.update h f).Holds u := by
    intro u
    unfold Holds
    rw [htypes]
  have hchanged : ∀ u, s.Holds u →
      Counterpart u (u.updateAt h f) ∧ P u.links (u.updateAt h f).links := by
    intro u hu
    obtain ⟨t, ht, hut⟩ := hu
    have hnodup := hut.nodup_handles (nodup_handles_of_mem hs ht)
    refine ⟨counterpart_updateAt hf hnodup, ?_⟩
    by_cases hid : u.id = h
    · rw [updateAt_of_eq hid, hagree u ⟨t, ht, hut⟩ hid]
      exact hlinks u ⟨t, ht, hut⟩ hid
    · rw [updateAt_of_ne hid]
      exact hP _
  constructor
  case outline =>
    rw [hroots]
    exact outline_update hf s h
  case forth =>
    intro u hu
    exact ⟨u.updateAt h f, (hholds _).mpr (holds_update hf hs hu), hchanged u hu⟩
  case back =>
    intro u' hu'
    obtain ⟨u, hu, rfl⟩ | ⟨x, hx, -⟩ := holds_of_update hf hs ((hholds _).mp hu')
    · exact ⟨u, hu, hchanged u hu⟩
    · exact absurd hx List.not_mem_nil

theorem Sound.update_alike (hs : s.Sound) (hg : ∀ u, s.Holds u → u.id = h → Alike u (g u)) :
    (s.update h g).Sound := by
  obtain ⟨f, hf, hroots, -⟩ := exists_extends_update hs.handles hg
  refine hs.of_outline (hroots ▸ outline_update hf s h) ?_ rfl rfl rfl
  have hhandles : (s.update h g).handles = s.handles := by
    unfold Store.handles types
    rw [hroots, roots_update, List.map_map, List.flatMap_map, List.flatMap_map]
    exact List.flatMap_congr fun e _ => handles_updateAt hf e.type
  rw [hhandles]

end Store

end Schemata
