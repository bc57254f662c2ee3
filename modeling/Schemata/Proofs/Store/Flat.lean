import Schemata.Proofs.Binding.Bound

/-!
# Flat stores

In a flat store nothing is nested, so that its types are its roots. `Store.Moves` says what the
flattening of types makes of a flat store: roots stay in their places, and each is as it was or has
been worked on from beginning to end, except the type `active`, which is being worked on.
-/

namespace Schemata.Store

open SchemaType

variable {s s' s'' : Store} {t u : SchemaType} {h : Handle} {q : QName} {g : SchemaType → SchemaType}
  {active : Option Handle}

def Flat (s : Store) : Prop :=
  ∀ t ∈ s.types, t.inner = []

theorem eq_of_within (ht : t.inner = []) (hu : Within u t) : u = t := by
  cases hu with
  | self => rfl
  | inner hc _ => exact absurd (ht ▸ hc) List.not_mem_nil

theorem Flat.holds_iff (hs : s.Flat) : s.Holds u ↔ u ∈ s.types := by
  constructor
  · rintro ⟨t, ht, hu⟩
    exact eq_of_within (hs t ht) hu ▸ ht
  · exact holds_of_mem_types

theorem Flat.has_iff (hs : s.Flat) : s.Has h q ↔ ∃ t ∈ s.types, t.id = h ∧ t.qname = q := by
  simp only [Has, hs.holds_iff]

/-- Roots differ in their handles. -/
theorem Sound.eq_of_id (hs : s.Sound) (ht : t ∈ s.types) (hu : u ∈ s.types) (hid : t.id = u.id) :
    t = u :=
  (holds_of_mem_types ht).eq_of_id hs.handles (holds_of_mem_types hu) hid

theorem Sound.get?_root (hs : s.Sound) (ht : t ∈ s.types) : s.get? t.id = some t :=
  get?_of_holds hs.handles (holds_of_mem_types ht)

theorem Sound.mem_of_lookup? (hs : s.Sound) {p : SchemaType → Bool} (ht : s.lookup? q p = some t) :
    t ∈ s.types ∧ t.qname = q :=
  (hs.of_lookup?_eq_some ht).imp_right And.left

/-- A change of a root of a flat store changes this root. -/
theorem Flat.mem_update (hs : s.Flat) (hsound : s.Sound) (ht : t ∈ s.types) :
    u ∈ (s.update t.id g).types ↔ u = g t ∨ u ∈ s.types ∧ u.id ≠ t.id := by
  have hroot : ∀ r ∈ s.types, r.id ≠ t.id → r.updateAt t.id g = r := by
    intro r hr hne
    rw [updateAt_of_ne hne, hs r hr, List.map_nil, ← hs r hr]
    cases r
    rfl
  rw [types_update, List.mem_map]
  constructor
  · rintro ⟨r, hr, rfl⟩
    by_cases hid : r.id = t.id
    · obtain rfl := hsound.eq_of_id hr ht hid
      exact .inl (updateAt_of_eq rfl)
    · rw [hroot r hr hid]
      exact .inr ⟨hr, hid⟩
  · rintro (rfl | ⟨hu, hid⟩)
    · exact ⟨t, ht, updateAt_of_eq rfl⟩
    · exact ⟨u, hu, hroot u hu hid⟩

theorem outline_update_alike (hs : s.Sound) (ht : t ∈ s.types) (hg : Alike t (g t)) :
    (s.update t.id g).roots.map Entry.outline = s.roots.map Entry.outline := by
  obtain ⟨f, hf, hroots, -⟩ := exists_extends_update (s := s) (h := t.id) (g := g) hs.handles
    fun u hu hid => hu.eq_of_id hs.handles (holds_of_mem_types ht) hid ▸ hg
  rw [hroots]
  exact outline_update hf s t.id

theorem map_id_of_outline (houtline : s'.roots.map Entry.outline = s.roots.map Entry.outline) :
    s'.types.map (·.id) = s.types.map (·.id) := by
  have hids := congrArg (List.map fun o => o.2.1) houtline
  rw [List.map_map, List.map_map] at hids
  rw [types, types, List.map_map, List.map_map]
  exact hids

/-- What the flattening of types makes of a flat store, while it works on the type `active`. -/
structure Moves (active : Option Handle) (s s' : Store) : Prop where
  outline : s'.roots.map Entry.outline = s.roots.map Entry.outline
  types : ∀ t ∈ s'.types, some t.id ≠ active →
    t ∈ s.types ∨ t.status = .flattened ∧ ∃ u ∈ s.types, u.id = t.id ∧ u.status < .flattening

namespace Moves

theorem refl (active : Option Handle) (s : Store) : Moves active s s :=
  ⟨rfl, fun _ ht _ => .inl ht⟩

theorem trans (hm : Moves active s s') (hm' : Moves active s' s'') : Moves active s s'' := by
  refine ⟨hm'.outline.trans hm.outline, fun t ht hne => ?_⟩
  obtain ht' | ⟨hdone, u, hu, hid, hpending⟩ := hm'.types t ht hne
  · exact hm.types t ht' hne
  · obtain hu' | ⟨hdone', -⟩ := hm.types u hu (hid ▸ hne)
    · exact .inr ⟨hdone, u, hu', hid, hpending⟩
    · rw [hdone'] at hpending
      exact absurd hpending (by decide)

theorem of_none (hm : Moves none s s') (active : Option Handle) : Moves active s s' :=
  ⟨hm.outline, fun t ht _ => hm.types t ht nofun⟩

/-- The work on a type is done when the type is. -/
theorem finish (hm : Moves (some t.id) s s') (hs' : s'.Sound) (ht : t ∈ s.types)
    (hpending : t.status < .flattening) (hu : u ∈ s'.types) (hid : u.id = t.id)
    (hdone : u.status = .flattened) : Moves none s s' := by
  refine ⟨hm.outline, fun v hv _ => ?_⟩
  by_cases hvt : v.id = t.id
  · obtain rfl := hs'.eq_of_id hv hu (hvt.trans hid.symm)
    exact .inr ⟨hdone, t, ht, hvt.symm, hpending⟩
  · exact hm.types v hv fun heq => hvt (Option.some.inj heq)

theorem exists_root (hm : Moves active s s') (ht : t ∈ s.types) :
    ∃ t' ∈ s'.types, t'.id = t.id ∧ t'.qname = t.qname := by
  obtain ⟨t', ht', hid, hqname, -⟩ := exists_of_outline hm.outline.symm ht
  exact ⟨t', ht', hid, hqname⟩

/-- What has been begun stays as it is. -/
theorem begun (hm : Moves active s s') (hs : s.Sound) (ht : t ∈ s.types)
    (hbegun : ¬ t.status < .flattening) (hne : some t.id ≠ active) : t ∈ s'.types := by
  obtain ⟨t', ht', hid, -⟩ := hm.exists_root ht
  obtain hold | ⟨-, u, hu, hid', hpending⟩ := hm.types t' ht' (hid ▸ hne)
  · exact hs.eq_of_id hold ht hid ▸ ht'
  · exact absurd (hs.eq_of_id hu ht (hid'.trans hid) ▸ hpending) hbegun

/-- What is being worked on has been worked on before. -/
theorem busy (hm : Moves active s s') (ht : t ∈ s'.types) (hbusy : t.status = .flattening)
    (hne : some t.id ≠ active) : t ∈ s.types := by
  obtain hold | ⟨hdone, -⟩ := hm.types t ht hne
  · exact hold
  · rw [hbusy] at hdone
    cases hdone

theorem has (hm : Moves active s s') (hs : s.Flat) (hhas : s.Has h q) : s'.Has h q := by
  obtain ⟨t, ht, rfl, rfl⟩ := hs.has_iff.mp hhas
  obtain ⟨t', ht', hid, hqname⟩ := hm.exists_root ht
  exact ⟨t', holds_of_mem_types ht', hid, hqname⟩

/-- A change of the type that is worked on. -/
theorem update (hs : s.Sound) (hflat : s.Flat) (ht : t ∈ s.types) (hg : Alike t (g t)) :
    Moves (some t.id) s (s.update t.id g) := by
  refine ⟨outline_update_alike hs ht hg, fun u hu hne => ?_⟩
  obtain rfl | ⟨hu, -⟩ := (hflat.mem_update hs ht).mp hu
  · exact absurd (congrArg some hg.id) hne
  · exact .inl hu

end Moves

end Schemata.Store
