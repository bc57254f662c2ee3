import Mathlib.Data.List.Nodup
import Schemata.Proofs.Model.Trees
import Schemata.Store.Place

/-!
# Changes of trees

A tree is changed at every type (`mapTree`), at the type with a handle (`updateAt`) or at the type that
a way leads to (`changeAt`). As long as handles tell types apart the second is a case of the first.
Changing the types one after the other, in any order, comes to the same as changing all at once.
-/

namespace Schemata

mutual

theorem Field.allTypes_mapTypes (g : FieldType → FieldType) :
    (f : Field) → (f.mapTypes g).allTypes = f.allTypes.map g
  | ⟨_, _, _, _, types, choices, _, _, _, _, _, _, _, _, _⟩ => by
    simp only [Field.mapTypes, Field.allTypes, List.map_append]
    rw [Field.allTypesOf_mapTypesOf g choices]

theorem Field.allTypesOf_mapTypesOf (g : FieldType → FieldType) :
    (fs : List Field) → Field.allTypesOf (Field.mapTypesOf g fs) = (Field.allTypesOf fs).map g
  | [] => rfl
  | f :: fs => by
    simp only [Field.mapTypesOf, Field.allTypesOf, List.map_append]
    rw [Field.allTypes_mapTypes g f, Field.allTypesOf_mapTypesOf g fs]

end

mutual

theorem Field.mapTypes_mapTypes (g h : FieldType → FieldType) :
    (f : Field) → (f.mapTypes g).mapTypes h = f.mapTypes (h ∘ g)
  | ⟨_, _, _, _, _, choices, _, _, _, _, _, _, _, _, _⟩ => by
    simp only [Field.mapTypes, List.map_map]
    rw [Field.mapTypesOf_mapTypesOf g h choices]

theorem Field.mapTypesOf_mapTypesOf (g h : FieldType → FieldType) :
    (fs : List Field) → Field.mapTypesOf h (Field.mapTypesOf g fs) = Field.mapTypesOf (h ∘ g) fs
  | [] => rfl
  | f :: fs => by
    simp only [Field.mapTypesOf]
    rw [Field.mapTypes_mapTypes g h f, Field.mapTypesOf_mapTypesOf g h fs]

end

mutual

theorem Field.mapTypes_id : (f : Field) → f.mapTypes (fun ft => ft) = f
  | ⟨_, _, _, _, _, choices, _, _, _, _, _, _, _, _, _⟩ => by
    simp only [Field.mapTypes, List.map_id']
    rw [Field.mapTypesOf_id choices]

theorem Field.mapTypesOf_id : (fs : List Field) → Field.mapTypesOf (fun ft => ft) fs = fs
  | [] => rfl
  | f :: fs => by
    simp only [Field.mapTypesOf]
    rw [Field.mapTypes_id f, Field.mapTypesOf_id fs]

end

theorem Field.mapTypesOf_eq_map (g : FieldType → FieldType) (fs : List Field) :
    Field.mapTypesOf g fs = fs.map (Field.mapTypes g) := by
  induction fs with
  | nil => rfl
  | cons f fs ih => rw [Field.mapTypesOf, ih, List.map_cons]

end Schemata

namespace Schemata.SchemaType

variable {t u : SchemaType} {h : Handle} {f g : SchemaType → SchemaType}

/-- The handles of a type and of all that is nested in it. -/
def handles (t : SchemaType) : List Handle :=
  t.walk.map (·.id)

theorem handles_eq (t : SchemaType) : t.handles = t.id :: t.inner.flatMap handles := by
  unfold handles
  rw [walk_eq, walkAll_eq_flatMap, List.map_cons, List.map_flatMap]

theorem mem_handles_iff : h ∈ t.handles ↔ ∃ u, Within u t ∧ u.id = h := by
  simp only [handles, List.mem_map, mem_walk_iff]

theorem mem_flatMap_handles_iff {ts : List SchemaType} :
    h ∈ ts.flatMap handles ↔ ∃ u, (∃ t ∈ ts, Within u t) ∧ u.id = h := by
  simp only [List.mem_flatMap, mem_handles_iff]
  constructor
  · rintro ⟨t, ht, u, hu, rfl⟩
    exact ⟨u, ⟨t, ht, hu⟩, rfl⟩
  · rintro ⟨u, ⟨t, ht, hu⟩, rfl⟩
    exact ⟨t, ht, u, hu, rfl⟩

theorem Within.handles_subset (hu : Within u t) : u.handles ⊆ t.handles := by
  intro h hh
  obtain ⟨v, hv, rfl⟩ := mem_handles_iff.mp hh
  exact mem_handles_iff.mpr ⟨v, hv.trans hu, rfl⟩

/-- The type with other inner types. -/
def withInner (t : SchemaType) (inner : List SchemaType) : SchemaType :=
  { t with inner }

@[simp] theorem withInner_inner (t : SchemaType) (inner : List SchemaType) :
    (t.withInner inner).inner = inner := rfl

@[simp] theorem withInner_id (t : SchemaType) (inner : List SchemaType) :
    (t.withInner inner).id = t.id := rfl

@[simp] theorem withInner_withInner (t : SchemaType) (inner inner' : List SchemaType) :
    (t.withInner inner).withInner inner' = t.withInner inner' := rfl

@[simp] theorem withInner_self (t : SchemaType) : t.withInner t.inner = t := by
  cases t
  rfl

/-- The type under another name. -/
def withQName (t : SchemaType) (q : QName) : SchemaType :=
  { t with qname := q }

@[simp] theorem withQName_qname (t : SchemaType) (q : QName) : (t.withQName q).qname = q := rfl

theorem withQName_withQName (t : SchemaType) (q q' : QName) :
    (t.withQName q).withQName q' = t.withQName q' :=
  rfl

theorem withQName_self (t : SchemaType) : t.withQName t.qname = t := by
  cases t
  rfl

theorem mapTrees_eq_map (ts : List SchemaType) : mapTrees g ts = ts.map (mapTree g) := by
  induction ts with
  | nil => rfl
  | cons t ts ih => rw [mapTrees, ih, List.map_cons]

theorem mapTree_eq (t : SchemaType) :
    t.mapTree g = g (t.withInner (t.inner.map (mapTree g))) := by
  cases t
  rw [mapTree, mapTrees_eq_map]
  rfl

/-- A change that neither sees nor touches what is nested. -/
def Superficial (g : SchemaType → SchemaType) : Prop :=
  ∀ t inner, g (t.withInner inner) = (g t).withInner inner

namespace Superficial

/-- A changed tree has at its top what the change makes of the top. -/
theorem mapTree_eq_withInner (hg : Superficial g) (t : SchemaType) :
    t.mapTree g = (g t).withInner (t.inner.map (mapTree g)) := by
  rw [mapTree_eq, hg]

/-- The handles of a changed tree are those that the change gives to the types in it. -/
theorem handles_mapTree {move : Handle → Handle} (hg : Superficial g) (hid : ∀ u, (g u).id = move u.id)
    (t : SchemaType) : (t.mapTree g).handles = t.handles.map move := by
  induction t using induct with
  | type t ih =>
    rw [hg.mapTree_eq_withInner, handles_eq, withInner_id, withInner_inner, hid, handles_eq t,
      List.map_cons, List.flatMap_map, List.map_flatMap]
    rw [List.flatMap_congr ih]

theorem mapTree_mapTree (hf : Superficial f) (t : SchemaType) :
    (t.mapTree f).mapTree g = t.mapTree (g ∘ f) := by
  induction t using induct with
  | type t ih =>
    have hinner : (t.mapTree f).inner.map (mapTree g) = t.inner.map (mapTree (g ∘ f)) := by
      rw [hf.mapTree_eq_withInner, withInner_inner, List.map_map]
      exact List.map_congr_left ih
    rw [mapTree_eq (t.mapTree f), hinner, hf.mapTree_eq_withInner, mapTree_eq t]
    rw [Function.comp_apply, hf, withInner_withInner]

end Superficial

/-- A change that keeps the handle and neither sees nor touches what is nested. -/
structure Shallow (g : SchemaType → SchemaType) : Prop where
  id : ∀ t, (g t).id = t.id
  withInner : ∀ t inner, g (t.withInner inner) = (g t).withInner inner

namespace Shallow

theorem superficial (hg : Shallow g) : Superficial g :=
  hg.withInner

theorem inner (hg : Shallow g) (t : SchemaType) : (g t).inner = t.inner := by
  have heq := congrArg SchemaType.inner (hg.withInner t t.inner)
  rwa [withInner_self] at heq

theorem mapTree_id (hg : Shallow g) (t : SchemaType) : (t.mapTree g).id = t.id := by
  rw [mapTree_eq, hg.id, withInner_id]

theorem mapTree_inner (hg : Shallow g) (t : SchemaType) :
    (t.mapTree g).inner = t.inner.map (mapTree g) := by
  rw [mapTree_eq, hg.inner, withInner_inner]

theorem mapTree_eq_withInner (hg : Shallow g) (t : SchemaType) :
    t.mapTree g = (g t).withInner (t.inner.map (mapTree g)) :=
  hg.superficial.mapTree_eq_withInner t

theorem walk_mapTree (hg : Shallow g) (t : SchemaType) :
    (t.mapTree g).walk = t.walk.map (mapTree g) := by
  induction t using induct with
  | type t ih =>
    rw [walk_eq, walk_eq, List.map_cons, hg.mapTree_inner, walkAll_eq_flatMap, walkAll_eq_flatMap,
      List.flatMap_map, List.map_flatMap]
    rw [List.flatMap_congr ih]

theorem walkAll_map_mapTree (hg : Shallow g) (ts : List SchemaType) :
    walkAll (ts.map (mapTree g)) = (walkAll ts).map (mapTree g) := by
  rw [walkAll_eq_flatMap, walkAll_eq_flatMap, List.flatMap_map, List.map_flatMap]
  exact List.flatMap_congr fun t _ => hg.walk_mapTree t

/-- What a changed tree holds is what the tree holds, each with the change. -/
theorem within_mapTree_iff (hg : Shallow g) {v : SchemaType} :
    Within v (t.mapTree g) ↔ ∃ u, Within u t ∧ u.mapTree g = v := by
  simp only [← mem_walk_iff, hg.walk_mapTree, List.mem_map]

theorem within_mapTree (hg : Shallow g) (hu : Within u t) : Within (u.mapTree g) (t.mapTree g) :=
  hg.within_mapTree_iff.mpr ⟨u, hu, rfl⟩

theorem handles_mapTree (hg : Shallow g) (t : SchemaType) : (t.mapTree g).handles = t.handles :=
  (hg.superficial.handles_mapTree hg.id t).trans (List.map_id' _)

theorem mapTree_mapTree (hf : Shallow f) (t : SchemaType) :
    (t.mapTree f).mapTree g = t.mapTree (g ∘ f) :=
  hf.superficial.mapTree_mapTree t

end Shallow

theorem mapTree_congr (hfg : ∀ u, u.id ∈ t.handles → f u = g u) : t.mapTree f = t.mapTree g := by
  induction t using induct with
  | type t ih =>
    have hinner : t.inner.map (mapTree f) = t.inner.map (mapTree g) :=
      List.map_congr_left fun u hu => ih u hu fun v hv =>
        hfg v ((Within.inner hu .self).handles_subset hv)
    rw [mapTree_eq, mapTree_eq, hinner]
    refine hfg _ ?_
    rw [withInner_id]
    exact mem_handles_iff.mpr ⟨t, .self, rfl⟩

theorem mapTree_of_forall_eq (hf : ∀ u, u.id ∈ t.handles → f u = u) : t.mapTree f = t := by
  induction t using induct with
  | type t ih =>
    have hinner : t.inner.map (mapTree f) = t.inner := by
      refine (List.map_congr_left fun u hu => ih u hu fun v hv => ?_).trans (List.map_id _)
      exact hf v ((Within.inner hu .self).handles_subset hv)
    rw [mapTree_eq, hinner, withInner_self]
    exact hf t (mem_handles_iff.mpr ⟨t, .self, rfl⟩)

theorem updateAllAt_eq_map (ts : List SchemaType) : updateAllAt h g ts = ts.map (updateAt h g) := by
  induction ts with
  | nil => rfl
  | cons t ts ih => rw [updateAllAt, ih, List.map_cons]

theorem updateAt_eq (t : SchemaType) : t.updateAt h g =
    if t.id = h then g t else t.withInner (t.inner.map (updateAt h g)) := by
  cases t
  rw [updateAt, updateAllAt_eq_map]
  rfl

theorem updateAt_of_not_mem (hh : h ∉ t.handles) : t.updateAt h g = t := by
  induction t using induct with
  | type t ih =>
    rw [handles_eq, List.mem_cons, List.mem_flatMap, not_or, not_exists] at hh
    have hinner : t.inner.map (updateAt h g) = t.inner :=
      (List.map_congr_left fun u hu => ih u hu fun hmem => hh.2 u ⟨hu, hmem⟩).trans (List.map_id _)
    rw [updateAt_eq, if_neg (Ne.symm hh.1), hinner, withInner_self]

theorem nodup_handles_inner (ht : t.handles.Nodup) (hu : u ∈ t.inner) : u.handles.Nodup := by
  rw [handles_eq, List.nodup_cons, List.nodup_flatMap] at ht
  exact ht.2.1 u hu

theorem Within.nodup_handles (hu : Within u t) (ht : t.handles.Nodup) : u.handles.Nodup := by
  induction hu with
  | self => exact ht
  | inner hs _ ih => exact ih (nodup_handles_inner ht hs)

theorem not_mem_handles_inner (ht : t.handles.Nodup) (hu : u ∈ t.inner) : t.id ∉ u.handles := by
  rw [handles_eq, List.nodup_cons, List.mem_flatMap, not_exists] at ht
  exact fun hmem => ht.1 u ⟨hu, hmem⟩

theorem updateAt_eq_mapTree (ht : t.handles.Nodup) :
    t.updateAt h g = t.mapTree fun u => if u.id = h then g u else u := by
  induction t using induct with
  | type t ih =>
    rw [updateAt_eq, mapTree_eq]
    split
    case isTrue hid =>
      -- nothing below the target has its handle
      have hinner : t.inner.map (mapTree fun u => if u.id = h then g u else u) = t.inner := by
        refine (List.map_congr_left fun u hu => mapTree_of_forall_eq fun v hv => ?_).trans
          (List.map_id _)
        refine if_neg fun hvid => not_mem_handles_inner ht hu ?_
        rw [hid, ← hvid]
        exact hv
      rw [hinner, withInner_self, if_pos hid]
    case isFalse hid =>
      have hinner : t.inner.map (updateAt h g) =
          t.inner.map (mapTree fun u => if u.id = h then g u else u) :=
        List.map_congr_left fun u hu => ih u hu (nodup_handles_inner ht hu)
      rw [hinner, withInner_id, if_neg hid]

theorem updateAt_updateAt (hf : ∀ t, (f t).id = t.id) (t : SchemaType) :
    (t.updateAt h f).updateAt h g = t.updateAt h (g ∘ f) := by
  induction t using induct with
  | type t ih =>
    rw [updateAt_eq t, updateAt_eq t]
    split
    case isTrue hid => rw [updateAt_eq, if_pos ((hf t).trans hid), Function.comp_apply]
    case isFalse hid =>
      rw [updateAt_eq, withInner_id, if_neg hid, withInner_inner, withInner_withInner, List.map_map]
      exact congrArg t.withInner (List.map_congr_left ih)

theorem fieldTypes_mapFieldTypes (g : FieldType → FieldType) (t : SchemaType) :
    (t.mapFieldTypes g).fieldTypes = t.fieldTypes.map g := by
  simp only [fieldTypes, mapFieldTypes, List.map_append, List.flatMap_map, List.map_flatMap,
    Field.allTypes_mapTypes, List.map_map, Function.comp_def]

theorem declares_mapFieldTypes_iff {g : FieldType → FieldType} {ft : FieldType} :
    (t.mapFieldTypes g).Declares ft ↔ ∃ ft', t.Declares ft' ∧ g ft' = ft := by
  simp only [← mem_fieldTypes_iff, fieldTypes_mapFieldTypes, List.mem_map]

theorem mapFieldTypes_mapFieldTypes (g h : FieldType → FieldType) (t : SchemaType) :
    (t.mapFieldTypes g).mapFieldTypes h = t.mapFieldTypes (h ∘ g) := by
  simp [mapFieldTypes, Function.comp_def, Field.mapTypes_mapTypes]

-- ---------------------------------------------------------------------------
-- One type after the other
-- ---------------------------------------------------------------------------

/-- Changes the type that a way leads to. -/
def changeAt (g : SchemaType → SchemaType) : List Nat → SchemaType → SchemaType
  | [], t => g t
  | n :: way, t => t.withInner (t.inner.modify n (changeAt g way))

theorem exists_at?_iff : (∃ way, at? way t = some u) ↔ Within u t := by
  constructor
  · rintro ⟨way, hway⟩
    induction way generalizing t with
    | nil =>
      obtain rfl : t = u := Option.some.inj hway
      exact .self
    | cons n way ih =>
      obtain ⟨s, hs, hway⟩ := Option.bind_eq_some_iff.mp hway
      exact .inner (List.mem_of_getElem? hs) (ih hway)
  · intro hu
    induction hu with
    | self => exact ⟨[], rfl⟩
    | inner hs _ ih =>
      obtain ⟨way, hway⟩ := ih
      obtain ⟨n, hn⟩ := List.mem_iff_getElem?.mp hs
      exact ⟨n :: way, by rw [at?, hn, Option.bind_some, hway]⟩

theorem mapTree_of_fixed (hg : ∀ u, Within u t → g u = u) : t.mapTree g = t := by
  induction t using induct with
  | type t ih =>
    have hinner : t.inner.map (mapTree g) = t.inner :=
      (List.map_congr_left fun u hu => ih u hu fun v hv => hg v (.inner hu hv)).trans (List.map_id _)
    rw [mapTree_eq, hinner, withInner_self]
    exact hg t .self

theorem map_modify_eq_map {ts : List SchemaType} {n : Nat} {k : SchemaType → SchemaType}
    (hk : ∀ t, (k t).mapTree g = t.mapTree g) :
    (ts.modify n k).map (mapTree g) = ts.map (mapTree g) := by
  refine List.ext_getElem? fun m => ?_
  simp only [List.getElem?_map, List.getElem?_modify]
  split
  · simp [Function.comp_def, hk]
  · simp

theorem modify_of_fixed {ts : List SchemaType} {k : SchemaType → SchemaType} (n : Nat)
    (hk : ∀ t ∈ ts, k t = t) : ts.modify n k = ts := by
  refine List.ext_getElem? fun m => ?_
  rw [List.getElem?_modify]
  cases hm : ts[m]? with
  | none => rfl
  | some t =>
    have ht := hk t (List.mem_of_getElem? hm)
    split
    · exact congrArg some ht
    · rfl

theorem changeAt_of_fixed (hg : ∀ u, Within u t → g u = u) (way : List Nat) :
    t.changeAt g way = t := by
  induction way generalizing t with
  | nil => exact hg t .self
  | cons n way ih =>
    have hinner : t.inner.modify n (changeAt g way) = t.inner :=
      modify_of_fixed n fun u hu => ih fun v hv => hg v (.inner hu hv)
    rw [changeAt, hinner, withInner_self]

/-- Changing a type makes no difference if all types are changed afterwards. -/
theorem Shallow.mapTree_changeAt (hg : Shallow g) (hidem : ∀ t, g (g t) = g t) (way : List Nat)
    (t : SchemaType) : (t.changeAt g way).mapTree g = t.mapTree g := by
  induction way generalizing t with
  | nil =>
    rw [changeAt, mapTree_eq, hg.inner, hg.withInner, hidem, ← hg.withInner]
    exact (mapTree_eq t).symm
  | cons n way ih =>
    rw [changeAt, mapTree_eq, withInner_inner, withInner_withInner, map_modify_eq_map ih]
    exact (mapTree_eq t).symm

/-- The type at a place among trees: the number of the tree and the way down in it. -/
def among? (ts : List SchemaType) (place : Nat × List Nat) : Option SchemaType :=
  ts[place.1]?.bind (at? place.2)

/-- Changes the type at a place among trees. -/
def changeAmong (g : SchemaType → SchemaType) (ts : List SchemaType) (place : Nat × List Nat) :
    List SchemaType :=
  ts.modify place.1 (changeAt g place.2)

/-- No type is left out. -/
def CoversAll (places : List (Nat × List Nat)) (ts : List SchemaType) : Prop :=
  ∀ place u, among? ts place = some u → place ∈ places

theorem exists_among?_iff {ts : List SchemaType} :
    (∃ place, among? ts place = some u) ↔ ∃ t ∈ ts, Within u t := by
  simp only [among?, Prod.exists, Option.bind_eq_some_iff, List.mem_iff_getElem?, ← exists_at?_iff]
  grind

/-- Changing a type leaves every other as it is, up to what is nested in it. -/
theorem Shallow.among?_changeAmong (hg : Shallow g) {ts : List SchemaType} {n m : Nat}
    {way way' : List Nat} (hu : among? (changeAmong g ts (n, way)) (m, way') = some u) :
    ∃ v inner, among? ts (m, way') = some v ∧
      u = (if (m, way') = (n, way) then g v else v).withInner inner := by
  induction way' generalizing ts n m way with
  | nil =>
    obtain ⟨c, hc, hu⟩ := Option.bind_eq_some_iff.mp hu
    rw [changeAmong, List.getElem?_modify] at hc
    obtain ⟨c, hts, rfl⟩ := Option.map_eq_some_iff.mp hc
    refine ⟨c, u.inner, by simp [among?, hts, at?], ?_⟩
    obtain rfl := Option.some.inj hu
    by_cases hnm : n = m
    · cases way with
      | nil => simp [hnm, changeAt]
      | cons k way => simp [hnm, changeAt]
    · simp [hnm, Ne.symm hnm]
  | cons k' way' ih =>
    obtain ⟨c, hc, hu⟩ := Option.bind_eq_some_iff.mp hu
    rw [changeAmong, List.getElem?_modify] at hc
    obtain ⟨c, hts, rfl⟩ := Option.map_eq_some_iff.mp hc
    have hbelow : ∀ v, among? c.inner (k', way') = some v → among? ts (m, k' :: way') = some v := by
      intro v hv
      rw [among?, hts, Option.bind_some]
      exact hv
    by_cases hnm : n = m
    · subst hnm
      cases way with
      | nil =>
        simp only [if_pos, changeAt] at hu
        refine ⟨u, u.inner, hbelow u ?_, by simp⟩
        rw [← hg.inner]
        exact hu
      | cons k way =>
        simp only [if_pos, changeAt] at hu
        obtain ⟨v, inner, hv, rfl⟩ := ih hu
        exact ⟨v, inner, hbelow v hv, by simp⟩
    · simp only [if_neg hnm] at hu
      exact ⟨u, u.inner, hbelow u hu, by simp [Ne.symm hnm]⟩

/-- What has been changed stays as the change leaves it, and there are no other types than before. -/
theorem Shallow.among?_foldl (hg : Shallow g) (hidem : ∀ t, g (g t) = g t)
    (places : List (Nat × List Nat)) {ts : List SchemaType} {place : Nat × List Nat}
    (hu : among? (places.foldl (changeAmong g) ts) place = some u) :
    ∃ v, among? ts place = some v ∧ (place ∈ places ∨ g v = v → g u = u) := by
  induction places generalizing ts with
  | nil => exact ⟨u, hu, fun h => h.resolve_left List.not_mem_nil⟩
  | cons first places ih =>
    obtain ⟨w, hw, hfixed⟩ := ih hu
    obtain ⟨v, inner, hv, rfl⟩ := hg.among?_changeAmong hw
    refine ⟨v, hv, fun hdone => hfixed ?_⟩
    rw [List.mem_cons] at hdone
    by_cases hfirst : place = first
    · rw [if_pos hfirst, hg.withInner, hidem]
      exact .inr rfl
    · rw [if_neg hfirst, hg.withInner]
      exact (hdone.imp_left fun h => h.resolve_left hfirst).imp_right fun h => by rw [h]

/-- Changing the types one after the other is changing them all, in whatever order and however often. -/
theorem Shallow.foldl_changeAmong (hg : Shallow g) (hidem : ∀ t, g (g t) = g t)
    {places : List (Nat × List Nat)} {ts : List SchemaType} (hall : CoversAll places ts) :
    places.foldl (changeAmong g) ts = ts.map (mapTree g) := by
  have hsame : (places.foldl (changeAmong g) ts).map (mapTree g) = ts.map (mapTree g) := by
    clear hall
    induction places generalizing ts with
    | nil => rfl
    | cons place places ih =>
      rw [List.foldl_cons, ih, changeAmong, map_modify_eq_map (hg.mapTree_changeAt hidem _)]
  rw [← hsame]
  refine (List.map_id _).symm.trans (List.map_congr_left fun t ht => ?_)
  refine (mapTree_of_fixed fun u hu => ?_).symm
  obtain ⟨place, hplace⟩ := exists_among?_iff.mpr ⟨t, ht, hu⟩
  obtain ⟨v, hv, hfixed⟩ := hg.among?_foldl hidem places hplace
  exact hfixed (.inl (hall place v hv))

/-- Changing types that the change leaves as they are changes nothing. -/
theorem foldl_changeAmong_of_fixed {ts : List SchemaType} (hg : ∀ t ∈ ts, ∀ u, Within u t → g u = u)
    (places : List (Nat × List Nat)) : places.foldl (changeAmong g) ts = ts := by
  induction places with
  | nil => rfl
  | cons place places ih =>
    have hfirst : changeAmong g ts place = ts :=
      modify_of_fixed _ fun t ht => changeAt_of_fixed (hg t ht) _
    rw [List.foldl_cons, hfirst, ih]

end Schemata.SchemaType
