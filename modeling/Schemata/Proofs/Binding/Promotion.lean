import Mathlib.Data.List.Induction
import Mathlib.Data.List.Nodup
import Schemata.Binding.Inner
import Schemata.Proofs.Model.Copies
import Schemata.Proofs.Model.Updates

/-!
# What promotion makes of a tree

Every inner type that is promoted changes the references of the whole tree that lead to it. All in all
the tree is changed once, reference by reference: as long as handles and names tell the inner types
apart, a reference that leads to one of them follows this one, whatever else is promoted.
-/

namespace Schemata

open SchemaType

variable {t u v c d r : SchemaType} {ft : FieldType} {q : QName} {g : FieldType → FieldType}
  {all : Bool} {ks : List Nat} {k : Nat} {busy : Status}

namespace FieldType

/-- A forward reference to the type, by its handle or, as long as it is unbound, by its name. -/
def LeadsTo (ft : FieldType) (c : SchemaType) : Prop :=
  ft.forward = true ∧ (ft.reference = c.id ∨ ft.reference = 0 ∧ ft.qname = c.qname)

/-- The reference as a dependency on the type under a name. -/
def bindTo (ft : FieldType) (c : SchemaType) (q : QName) : FieldType :=
  { ft with qname := q, forward := false, reference := c.id }

theorem follow_of_leadsTo (h : ft.LeadsTo c) : ft.follow c q = ft.bindTo c q := by
  obtain ⟨hforward, h⟩ := h
  unfold follow
  rw [if_pos (by simpa [hforward] using h)]
  rfl

theorem follow_of_not_leadsTo (h : ¬ ft.LeadsTo c) : ft.follow c q = ft := by
  unfold follow
  refine if_neg fun hc => h ?_
  simpa [LeadsTo] using hc

theorem follow_congr (hid : d.id = c.id) (hq : d.qname = c.qname) : ft.follow d q = ft.follow c q := by
  simp only [follow, hid, hq]

end FieldType

namespace SchemaType

/-- Handles and names tell the inner types apart, and all of them have handles. -/
structure Discernible (t : SchemaType) : Prop where
  handles : (t.inner.map (·.id)).Nodup
  names : (t.inner.map (·.qname)).Nodup
  handle : ∀ c ∈ t.inner, c.id ≠ 0

/-- A reference leads to one inner type. -/
theorem Discernible.eq_of_leadsTo (ht : t.Discernible) (hc : c ∈ t.inner) (hd : d ∈ t.inner) (hftc : ft.LeadsTo c)
    (hftd : ft.LeadsTo d) : c = d := by
  obtain ⟨-, hidc | ⟨hzero, hqc⟩⟩ := hftc
  · obtain ⟨-, hidd | ⟨hzero, -⟩⟩ := hftd
    · exact List.inj_on_of_nodup_map ht.handles hc hd (hidc.symm.trans hidd)
    · exact absurd (hidc.symm.trans hzero) (ht.handle c hc)
  · obtain ⟨-, hidd | ⟨-, hqd⟩⟩ := hftd
    · exact absurd (hidd.symm.trans hzero) (ht.handle d hd)
    · exact List.inj_on_of_nodup_map ht.names hc hd (hqc.symm.trans hqd)

/-- The name that an inner type gets when it is promoted. -/
def promotedName (t c : SchemaType) : QName :=
  c.qname.withName (t.name ++ "_" ++ c.name)

/-- An inner type as the root that it becomes. -/
def promoted (t c : SchemaType) : SchemaType :=
  { c with
    qname := t.promotedName c
    localType := true
    location := if c.location = "" then t.location else c.location }

/-- What becomes of a reference when the inner type at a position is promoted. -/
def followAt (t : SchemaType) (ft : FieldType) (k : Nat) : FieldType :=
  match t.inner[k]? with
  | none => ft
  | some c => ft.follow c (t.promotedName c)

/-- What becomes of a reference when the inner types at the positions are promoted. -/
def followAll (t : SchemaType) (ks : List Nat) (ft : FieldType) : FieldType :=
  ks.foldl t.followAt ft

-- ---------------------------------------------------------------------------
-- What becomes of references
-- ---------------------------------------------------------------------------

theorem followAt_of_dependency (hft : ft.forward = false) (k : Nat) : t.followAt ft k = ft := by
  unfold followAt
  split
  · rfl
  · refine FieldType.follow_of_not_leadsTo fun h => ?_
    rw [h.1] at hft
    cases hft

theorem followAll_of_dependency (hft : ft.forward = false) (ks : List Nat) : t.followAll ks ft = ft := by
  unfold followAll
  induction ks with
  | nil => rfl
  | cons k ks ih => rw [List.foldl_cons, followAt_of_dependency hft, ih]

theorem followAt_cases (t : SchemaType) (ft : FieldType) (k : Nat) : t.followAt ft k = ft ∨
    ∃ c, t.inner[k]? = some c ∧ ft.LeadsTo c ∧ t.followAt ft k = ft.bindTo c (t.promotedName c) := by
  unfold followAt
  split
  · exact .inl rfl
  case h_2 c hc =>
    by_cases h : ft.LeadsTo c
    · exact .inr ⟨c, hc, h, FieldType.follow_of_leadsTo h⟩
    · exact .inl (FieldType.follow_of_not_leadsTo h)

/-- A reference stays as it is, or it becomes a dependency on a type that is promoted. -/
theorem followAll_cases (t : SchemaType) (ks : List Nat) (ft : FieldType) : t.followAll ks ft = ft ∨
    ∃ k ∈ ks, ∃ c, t.inner[k]? = some c ∧ ft.LeadsTo c ∧
      t.followAll ks ft = ft.bindTo c (t.promotedName c) := by
  induction ks with
  | nil => exact .inl rfl
  | cons k ks ih =>
    have hcons : t.followAll (k :: ks) ft = t.followAll ks (t.followAt ft k) := List.foldl_cons
    rw [hcons]
    obtain hsame | ⟨c, hc, hft, hbound⟩ := t.followAt_cases ft k
    · rw [hsame]
      exact ih.imp_right fun ⟨j, hj, h⟩ => ⟨j, List.mem_cons_of_mem _ hj, h⟩
    · rw [hbound, followAll_of_dependency rfl]
      exact .inr ⟨k, List.mem_cons_self, c, hc, hft, rfl⟩

/-- A reference that leads to a type that is promoted follows this type. -/
theorem Discernible.followAll (ht : t.Discernible) (hk : k ∈ ks) (hc : t.inner[k]? = some c) (hft : ft.LeadsTo c) :
    t.followAll ks ft = ft.bindTo c (t.promotedName c) := by
  induction ks with
  | nil => exact absurd hk List.not_mem_nil
  | cons j ks ih =>
    have hcons : t.followAll (j :: ks) ft = t.followAll ks (t.followAt ft j) := List.foldl_cons
    rw [hcons]
    obtain hsame | ⟨d, hd, hftd, hbound⟩ := t.followAt_cases ft j
    · obtain rfl | hk := List.mem_cons.mp hk
      · -- it is this type that the first position is about
        have hfirst : t.followAt ft k = ft.bindTo c (t.promotedName c) := by
          rw [followAt, hc]
          exact FieldType.follow_of_leadsTo hft
        rw [hfirst, followAll_of_dependency rfl]
      · rw [hsame]
        exact ih hk
    · obtain rfl := ht.eq_of_leadsTo (List.mem_of_getElem? hc) (List.mem_of_getElem? hd) hft hftd
      rw [hbound, followAll_of_dependency rfl]

-- ---------------------------------------------------------------------------
-- What becomes of the tree
-- ---------------------------------------------------------------------------

/-- The tree with every reference changed. -/
abbrev rewire (g : FieldType → FieldType) (t : SchemaType) : SchemaType :=
  t.mapTree (mapFieldTypes g)

theorem rewire_eq (g : FieldType → FieldType) (t : SchemaType) :
    t.rewire g = (t.mapFieldTypes g).withInner (t.inner.map (rewire g)) :=
  (shallow_mapFieldTypes g).mapTree_eq_withInner t

theorem rewire_rewire (g g' : FieldType → FieldType) (t : SchemaType) :
    (t.rewire g).rewire g' = t.rewire (g' ∘ g) := by
  unfold rewire
  rw [(shallow_mapFieldTypes g).mapTree_mapTree]
  congr 1
  funext u
  exact mapFieldTypes_mapFieldTypes g g' u

theorem mapFieldTypes_id (t : SchemaType) : t.mapFieldTypes (fun ft => ft) = t := by
  have hfields : t.fields.map (Field.mapTypes fun ft => ft) = t.fields :=
    (List.map_congr_left fun f _ => f.mapTypes_id).trans (List.map_id _)
  rw [mapFieldTypes, hfields, List.map_id']
  cases t
  rfl

theorem rewire_id (t : SchemaType) : t.rewire (fun ft => ft) = t :=
  mapTree_of_forall_eq fun u _ => u.mapFieldTypes_id

theorem promoted_rewire (t c : SchemaType) (g : FieldType → FieldType) :
    (t.promoted c).rewire g = t.promoted (c.rewire g) := by
  rw [rewire_eq, rewire_eq]
  rfl

/-- The tree with the inner types at the positions under their new names, and all references changed. -/
def withPromoted (t : SchemaType) (ks : List Nat) (g : FieldType → FieldType) : SchemaType :=
  (t.mapFieldTypes g).withInner
    (t.inner.mapIdx fun k c => if k ∈ ks then t.promoted (c.rewire g) else c.rewire g)

theorem rewire_withPromoted (t : SchemaType) (ks : List Nat) (g g' : FieldType → FieldType) :
    (t.withPromoted ks g).rewire g' = t.withPromoted ks (g' ∘ g) := by
  rw [rewire_eq, withPromoted, withPromoted, (shallow_mapFieldTypes g').withInner, withInner_inner,
    withInner_withInner, mapFieldTypes_mapFieldTypes]
  refine congrArg _ (List.ext_getElem? fun k => ?_)
  rw [List.getElem?_map, List.getElem?_mapIdx, List.getElem?_mapIdx, Option.map_map]
  congr 1
  funext c
  rw [Function.comp_apply, apply_ite (rewire g'), promoted_rewire, rewire_rewire]

theorem getElem?_withPromoted (t : SchemaType) (ks : List Nat) (g : FieldType → FieldType) (k : Nat) :
    (t.withPromoted ks g).inner[k]? =
      t.inner[k]?.map fun c => if k ∈ ks then t.promoted (c.rewire g) else c.rewire g :=
  List.getElem?_mapIdx

/-- One more inner type is promoted. -/
theorem promoteAt_withPromoted (hk : k ∉ ks) (hc : t.inner[k]? = some c) :
    (t.withPromoted ks g).promoteAt k =
      t.withPromoted (ks ++ [k]) ((FieldType.follow c (t.promotedName c)) ∘ g) := by
  have hinner : (t.withPromoted ks g).inner[k]? = some (c.rewire g) := by
    rw [getElem?_withPromoted, hc, Option.map_some, if_neg hk]
  have hfollow : FieldType.follow (c.rewire g) (t.promotedName c) =
      FieldType.follow c (t.promotedName c) := by
    funext ft
    exact FieldType.follow_congr ((shallow_mapFieldTypes g).mapTree_id c) (by rw [rewire_eq]; rfl)
  have hname : (c.rewire g).qname.withName
      ((t.withPromoted ks g).name ++ "_" ++ (c.rewire g).name) = t.promotedName c := by
    rw [rewire_eq]
    rfl
  have htree : (t.withPromoted ks g).mapTree (mapFieldTypes (FieldType.follow c (t.promotedName c))) =
      t.withPromoted ks (FieldType.follow c (t.promotedName c) ∘ g) :=
    rewire_withPromoted t ks g _
  rw [promoteAt, hinner]
  dsimp only
  rw [hname, hfollow, htree]
  refine congrArg (withInner _) (List.ext_getElem? fun j => ?_)
  rw [List.getElem?_modify, getElem?_withPromoted, List.getElem?_mapIdx]
  by_cases hj : k = j
  · subst hj
    have hmem : k ∈ ks ++ [k] := List.mem_append_right _ (List.mem_singleton_self k)
    simp only [if_pos, if_neg hk, if_pos hmem, hc, Option.map_some, Option.map_eq_map]
    rw [rewire_eq]
    rfl
  · have hmem : j ∈ ks ++ [k] ↔ j ∈ ks := by simp [Ne.symm hj]
    simp only [if_neg hj, hmem, Option.map_eq_map, Option.map_id']

/-- Inner types are promoted one after the other, but the tree is changed once. -/
theorem foldl_promoteAt (hks : ks.Nodup) (hlt : ∀ k ∈ ks, k < t.inner.length) :
    ks.foldl promoteAt t = t.withPromoted ks (t.followAll ks) := by
  induction ks using List.reverseRecOn with
  | nil =>
    have hnone : t.followAll [] = fun ft => ft := rfl
    have hinner : t.inner.mapIdx (fun _ c => c) = t.inner :=
      List.ext_getElem? fun k => by rw [List.getElem?_mapIdx, Option.map_id']
    simp only [List.foldl_nil, withPromoted, hnone, List.not_mem_nil, if_false, rewire_id, mapFieldTypes_id,
      hinner, withInner_self]
  | append_singleton ks k ih =>
    obtain ⟨hks, hk⟩ : ks.Nodup ∧ k ∉ ks := by
      have h := List.nodup_append'.mp hks
      exact ⟨h.1, fun hmem => h.2.2 hmem (List.mem_singleton_self k)⟩
    rw [List.foldl_append, ih hks fun j hj => hlt j (List.mem_append_left _ hj), List.foldl_cons,
      List.foldl_nil]
    have hc := List.getElem?_eq_getElem (hlt k (by simp))
    rw [promoteAt_withPromoted hk hc]
    refine congrArg _ (funext fun ft => ?_)
    rw [followAll, List.foldl_append]
    simp [followAt, hc, followAll]

theorem mem_promotable_iff :
    k ∈ t.promotable all ↔ ∃ c, t.inner[k]? = some c ∧ (all || c.isEnumeration) = true := by
  simp only [promotable, List.mem_map, List.mem_filter, Prod.exists, List.mem_zipIdx_iff_getElem?]
  constructor
  · rintro ⟨c, j, ⟨hc, hall⟩, rfl⟩
    exact ⟨c, hc, hall⟩
  · rintro ⟨c, hc, hall⟩
    exact ⟨c, k, ⟨hc, hall⟩, rfl⟩

theorem nodup_promotable (t : SchemaType) (all : Bool) : (t.promotable all).Nodup := by
  have hplaces : (t.inner.zipIdx.map (·.2)).Nodup := by
    rw [List.zipIdx_map_snd]
    exact List.nodup_range'
  exact (List.filter_sublist.map _).nodup hplaces

/-- What becomes of the references of a tree when inner types of it are promoted. -/
def divert (t : SchemaType) (all : Bool) : FieldType → FieldType :=
  t.followAll (t.promotable all)

theorem foldl_promotable (t : SchemaType) (all : Bool) : (t.promotable all).foldl promoteAt t =
    t.withPromoted (t.promotable all) (t.divert all) := by
  refine foldl_promoteAt (t.nodup_promotable all) fun k hk => ?_
  obtain ⟨c, hc, -⟩ := mem_promotable_iff.mp hk
  exact (List.getElem?_eq_some_iff.mp hc).1

theorem divert_cases (t : SchemaType) (all : Bool) (ft : FieldType) : t.divert all ft = ft ∨
    ∃ c ∈ t.inner, (all || c.isEnumeration) = true ∧ ft.LeadsTo c ∧
      t.divert all ft = ft.bindTo c (t.promotedName c) := by
  obtain hsame | ⟨k, hk, c, hc, hft, hbound⟩ := t.followAll_cases (t.promotable all) ft
  · exact .inl hsame
  · obtain ⟨d, hd, hall⟩ := mem_promotable_iff.mp hk
    obtain rfl := Option.some.inj (hc.symm.trans hd)
    exact .inr ⟨c, List.mem_of_getElem? hc, hall, hft, hbound⟩

theorem Discernible.divert (ht : t.Discernible) (hc : c ∈ t.inner) (hall : (all || c.isEnumeration) = true)
    (hft : ft.LeadsTo c) : t.divert all ft = ft.bindTo c (t.promotedName c) := by
  obtain ⟨k, hk⟩ := List.mem_iff_getElem?.mp hc
  exact ht.followAll (mem_promotable_iff.mpr ⟨c, hk, hall⟩) hk hft

/-- The changed inner types with their positions. -/
def placed (t : SchemaType) (all : Bool) : List (SchemaType × Nat) :=
  (t.withPromoted (t.promotable all) (t.divert all)).inner.zipIdx

theorem promote_eq (t : SchemaType) (all : Bool) : t.promote all =
    ((t.mapFieldTypes (t.divert all)).withInner
        (((t.placed all).filter fun p => !(t.promotable all).contains p.2).map (·.1)),
      ((t.placed all).filter fun p => (t.promotable all).contains p.2).map (·.1)) := by
  unfold promote
  dsimp only
  rw [foldl_promotable]
  rfl

theorem mem_placed_iff {p : SchemaType × Nat} : p ∈ t.placed all ↔ ∃ c, t.inner[p.2]? = some c ∧
    p.1 = if p.2 ∈ t.promotable all then t.promoted (c.rewire (t.divert all))
      else c.rewire (t.divert all) := by
  rw [placed, List.mem_zipIdx_iff_getElem?, getElem?_withPromoted, Option.map_eq_some_iff]
  exact ⟨fun ⟨c, hc, h⟩ => ⟨c, hc, h.symm⟩, fun ⟨c, hc, h⟩ => ⟨c, hc, h.symm⟩⟩

theorem promote_fst (t : SchemaType) (all : Bool) :
    (t.promote all).1 = (t.mapFieldTypes (t.divert all)).withInner (t.promote all).1.inner := by
  rw [promote_eq, withInner_inner]

theorem fields_promote (t : SchemaType) (all : Bool) :
    (t.promote all).1.fields = t.fields.map (Field.mapTypes (t.divert all)) := by
  rw [promote_fst]
  rfl

theorem mem_inner_promote_iff : u ∈ (t.promote all).1.inner ↔
    ∃ c ∈ t.inner, (all || c.isEnumeration) = false ∧ u = c.rewire (t.divert all) := by
  simp only [promote_eq, withInner_inner, List.mem_map, List.mem_filter, mem_placed_iff]
  constructor
  · rintro ⟨⟨u, k⟩, ⟨⟨c, hc, hu⟩, hk⟩, rfl⟩
    have hk : k ∉ t.promotable all := by simpa using hk
    refine ⟨c, List.mem_of_getElem? hc, ?_, hu.trans (if_neg hk)⟩
    exact Bool.eq_false_iff.mpr fun hall => hk (mem_promotable_iff.mpr ⟨c, hc, hall⟩)
  · rintro ⟨c, hc, hall, rfl⟩
    obtain ⟨k, hk⟩ := List.mem_iff_getElem?.mp hc
    have hnot : k ∉ t.promotable all := by
      intro hmem
      obtain ⟨d, hd, hd'⟩ := mem_promotable_iff.mp hmem
      obtain rfl := Option.some.inj (hk.symm.trans hd)
      rw [hall] at hd'
      cases hd'
    exact ⟨⟨_, k⟩, ⟨⟨c, hk, (if_neg hnot).symm⟩, by simpa using hnot⟩, rfl⟩

theorem mem_promote_iff : r ∈ (t.promote all).2 ↔
    ∃ c ∈ t.inner, (all || c.isEnumeration) = true ∧ r = t.promoted (c.rewire (t.divert all)) := by
  simp only [promote_eq, List.mem_map, List.mem_filter, mem_placed_iff]
  constructor
  · rintro ⟨⟨r, k⟩, ⟨⟨c, hc, hr⟩, hk⟩, rfl⟩
    have hk : k ∈ t.promotable all := by simpa using hk
    obtain ⟨d, hd, hall⟩ := mem_promotable_iff.mp hk
    obtain rfl := Option.some.inj (hc.symm.trans hd)
    exact ⟨c, List.mem_of_getElem? hc, hall, hr.trans (if_pos hk)⟩
  · rintro ⟨c, hc, hall, rfl⟩
    obtain ⟨k, hk⟩ := List.mem_iff_getElem?.mp hc
    have hmem := mem_promotable_iff.mpr ⟨c, hk, hall⟩
    exact ⟨⟨_, k⟩, ⟨⟨c, hk, (if_pos hmem).symm⟩, by simpa using hmem⟩, rfl⟩

theorem handles_rewire (g : FieldType → FieldType) (t : SchemaType) : (t.rewire g).handles = t.handles :=
  (shallow_mapFieldTypes g).handles_mapTree t

theorem handles_promoted (t c : SchemaType) : (t.promoted c).handles = c.handles := by
  rw [handles_eq, handles_eq c]
  rfl

/-- Promotion parts the types of a tree. -/
theorem handles_promote_perm (t : SchemaType) (all : Bool) :
    ((t.promote all).1.handles ++ (t.promote all).2.flatMap handles).Perm t.handles := by
  have hinner : (t.withPromoted (t.promotable all) (t.divert all)).inner.map handles =
      t.inner.map handles := by
    refine List.ext_getElem? fun k => ?_
    rw [List.getElem?_map, getElem?_withPromoted, Option.map_map, List.getElem?_map]
    congr 1
    funext c
    rw [Function.comp_apply, apply_ite handles, handles_promoted, handles_rewire, ite_self]
  have hplaced : (((t.placed all).map (·.1)).flatMap handles).Perm (t.inner.flatMap handles) := by
    rw [placed, List.zipIdx_map_fst, List.flatMap_def, hinner, ← List.flatMap_def]
  rw [promote_eq, handles_eq, handles_eq t, withInner_inner, List.cons_append, ← List.flatMap_append,
    ← List.map_append]
  refine List.Perm.cons _ (List.Perm.trans (List.Perm.flatMap_right _ (List.Perm.map _ ?_)) hplaced)
  have hperm := List.filter_append_perm (fun p => !(t.promotable all).contains p.2) (t.placed all)
  simpa only [Bool.not_not] using hperm

/-- The same type with its references changed and at most what was to be done left to do. -/
structure Rewired (g : FieldType → FieldType) (u v : SchemaType) : Prop where
  id : v.id = u.id
  status : v.status = u.status
  substitutions : v.substitutions = u.substitutions
  fields : v.fields = u.fields.map (Field.mapTypes g)
  extensions : v.extensions = u.extensions.map fun e => { e with type := g e.type }
  pending : ∀ busy, v.pending busy ⊆ u.pending busy

theorem pending_rewire (u : SchemaType) (busy : Status) : (u.rewire g).pending busy = u.pending busy := by
  induction u using induct with
  | type u ih =>
    rw [pending_eq, pending_eq u, rewire_eq, withInner_inner, List.flatMap_map]
    exact congrArg _ (List.flatMap_congr ih)

theorem rewired_rewire (u : SchemaType) : Rewired g u (u.rewire g) := by
  have hpending := fun busy => pending_rewire (g := g) u busy
  constructor
  case pending => exact fun busy _ hh => hpending busy ▸ hh
  all_goals rw [rewire_eq]; rfl

theorem rewired_promoted (t c : SchemaType) : Rewired g c (t.promoted (c.rewire g)) := by
  have h := rewired_rewire (g := g) c
  refine ⟨h.id, h.status, h.substitutions, h.fields, h.extensions, fun busy => ?_⟩
  have hsame : (t.promoted (c.rewire g)).pending busy = (c.rewire g).pending busy := by
    rw [pending_eq, pending_eq (c.rewire g)]
    rfl
  exact hsame ▸ h.pending busy

theorem rewired_promote (t : SchemaType) (all : Bool) :
    Rewired (t.divert all) t (t.promote all).1 := by
  have hfst := promote_fst t all
  constructor
  case pending =>
    intro busy
    have hrest : (t.promote all).1.inner.flatMap (pending busy) ⊆ t.inner.flatMap (pending busy) := by
      intro h hh
      obtain ⟨u, hu, hh⟩ := List.mem_flatMap.mp hh
      obtain ⟨c, hc, -, rfl⟩ := mem_inner_promote_iff.mp hu
      exact List.mem_flatMap.mpr ⟨c, hc, pending_rewire c busy ▸ hh⟩
    rw [pending_eq, pending_eq t]
    refine List.append_subset.mpr ⟨?_, List.Subset.trans hrest (List.subset_append_right _ _)⟩
    rw [hfst]
    exact List.subset_append_left _ _
  all_goals rw [hfst]; rfl

/-- All that is there after promotion has been there before. -/
theorem exists_of_within_promote (hr : r ∈ (t.promote all).1 :: (t.promote all).2) (hv : Within v r) :
    ∃ u, Within u t ∧ Rewired (t.divert all) u v := by
  have hin : ∀ {c : SchemaType}, c ∈ t.inner → Within v (c.rewire (t.divert all)) →
      ∃ u, Within u t ∧ Rewired (t.divert all) u v := by
    intro c hc hv
    obtain ⟨u, hu, rfl⟩ := (shallow_mapFieldTypes _).within_mapTree_iff.mp hv
    exact ⟨u, .inner hc hu, rewired_rewire u⟩
  obtain rfl | hr := List.mem_cons.mp hr
  · cases hv with
    | self => exact ⟨t, .self, rewired_promote t all⟩
    | inner hd hv =>
      obtain ⟨c, hc, -, rfl⟩ := mem_inner_promote_iff.mp hd
      exact hin hc hv
  · obtain ⟨c, hc, -, rfl⟩ := mem_promote_iff.mp hr
    cases hv with
    | self => exact ⟨c, .inner hc .self, rewired_promoted t c⟩
    | inner hd hv => exact hin hc (.inner hd hv)

/-- All that has been there before is there after promotion. -/
theorem exists_within_promote (all : Bool) (hu : Within u t) :
    ∃ r ∈ (t.promote all).1 :: (t.promote all).2, ∃ v, Within v r ∧ Rewired (t.divert all) u v := by
  have hin : ∀ {c : SchemaType}, Within u c →
      Within (u.rewire (t.divert all)) (c.rewire (t.divert all)) :=
    (shallow_mapFieldTypes _).within_mapTree
  cases hu with
  | self => exact ⟨_, List.mem_cons_self, _, .self, rewired_promote t all⟩
  | @inner _ c hc hu =>
    cases hall : all || c.isEnumeration with
    | false =>
      have hmem := mem_inner_promote_iff.mpr ⟨c, hc, hall, rfl⟩
      exact ⟨_, List.mem_cons_self, _, .inner hmem (hin hu), rewired_rewire u⟩
    | true =>
      have hmem := List.mem_cons_of_mem (t.promote all).1 (mem_promote_iff.mpr ⟨c, hc, hall, rfl⟩)
      cases hu with
      | self => exact ⟨_, hmem, _, .self, rewired_promoted t u⟩
      | @inner _ d hd hu =>
        have hd : d.rewire (t.divert all) ∈ (c.rewire (t.divert all)).inner := by
          rw [rewire_eq _ c]
          exact List.mem_map_of_mem hd
        exact ⟨_, hmem, _, .inner hd (hin hu), rewired_rewire u⟩

end SchemaType

end Schemata
