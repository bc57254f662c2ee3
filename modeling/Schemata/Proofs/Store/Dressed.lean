import Schemata.Proofs.Binding.Bound
import Schemata.Proofs.Inherit.Heritage
import Schemata.Proofs.Store.History

/-!
# Stores that differ in fields and statuses

A step that changes nothing but the fields and the status of types leads to stores that can be had from
the first one by dressing its types anew: roots, nesting, names, handles and bases stay. Look-ups find
the same types in all of them, and the lineage of a type is the same.
-/

namespace Schemata

/-- The fields and the status that types have, by handle. -/
abbrev Dress := Handle → List Field × Status

namespace SchemaType

variable {t u v : SchemaType} {d : Dress} {h : Handle}

def dress (d : Dress) (t : SchemaType) : SchemaType :=
  { t with fields := (d t.id).1, status := (d t.id).2 }

theorem shallow_dress (d : Dress) : Shallow (dress d) :=
  ⟨fun _ => rfl, fun _ _ => rfl⟩

/-- The type and all that is nested in it, dressed. -/
def dressed (d : Dress) (t : SchemaType) : SchemaType :=
  t.mapTree (dress d)

theorem dressed_eq (d : Dress) (t : SchemaType) :
    t.dressed d = (t.dress d).withInner (t.inner.map (dressed d)) :=
  (shallow_dress d).mapTree_eq_withInner t

@[simp] theorem dressed_id (d : Dress) (t : SchemaType) : (t.dressed d).id = t.id := by
  rw [dressed_eq, withInner_id, dress]

@[simp] theorem dressed_qname (d : Dress) (t : SchemaType) : (t.dressed d).qname = t.qname := by
  rw [dressed_eq, withInner, dress]

@[simp] theorem dressed_tag (d : Dress) (t : SchemaType) : (t.dressed d).tag = t.tag := by
  rw [dressed_eq, withInner, dress]

@[simp] theorem dressed_extensions (d : Dress) (t : SchemaType) :
    (t.dressed d).extensions = t.extensions := by
  rw [dressed_eq, withInner, dress]

@[simp] theorem dressed_fields (d : Dress) (t : SchemaType) : (t.dressed d).fields = (d t.id).1 := by
  rw [dressed_eq, withInner, dress]

@[simp] theorem dressed_status (d : Dress) (t : SchemaType) : (t.dressed d).status = (d t.id).2 := by
  rw [dressed_eq, withInner, dress]

theorem dressed_inner (d : Dress) (t : SchemaType) :
    (t.dressed d).inner = t.inner.map (dressed d) := by
  rw [dressed_eq, withInner_inner]

theorem walkAll_map_dressed (d : Dress) (ts : List SchemaType) :
    walkAll (ts.map (dressed d)) = (walkAll ts).map (dressed d) :=
  (shallow_dress d).walkAll_map_mapTree ts

theorem handles_dressed (d : Dress) (t : SchemaType) : (t.dressed d).handles = t.handles :=
  (shallow_dress d).handles_mapTree t

theorem within_dressed_iff : Within v (t.dressed d) ↔ ∃ u, Within u t ∧ u.dressed d = v :=
  (shallow_dress d).within_mapTree_iff

theorem nested?_dressed (d : Dress) (t : SchemaType) (q : QName) :
    (t.dressed d).nested? q = (t.nested? q).map (dressed d) := by
  rw [nested?, nested?, dressed_inner, walkAll_map_dressed, List.find?_map]
  refine congrArg (Option.map _) (congrArg (List.find? · _) (funext fun u => ?_))
  rw [Function.comp_apply, dressed_qname]

/-- Types that are dressed as they are stay as they are. -/
theorem dressed_self (hd : ∀ u, Within u t → d u.id = (u.fields, u.status)) : t.dressed d = t := by
  induction t using induct with
  | type t ih =>
    have hinner : t.inner.map (dressed d) = t.inner :=
      (List.map_congr_left fun c hc => ih c hc fun u hu => hd u (.inner hc hu)).trans (List.map_id _)
    rw [dressed_eq, hinner, dress, hd t .self]
    cases t
    rfl

theorem dressed_congr {d' : Dress} (hd : ∀ u, Within u t → d' u.id = d u.id) :
    t.dressed d' = t.dressed d := by
  refine mapTree_congr fun u hu => ?_
  obtain ⟨v, hv, hid⟩ := mem_handles_iff.mp hu
  rw [dress, dress, ← hid, hd v hv]

/-- A change of the fields and the status of one type of a tree. -/
theorem updateAt_dressed {g : SchemaType → SchemaType} {fs : List Field} {status : Status}
    (ht : t.handles.Nodup) (hg : ∀ u, Within u t → u.id = h →
      g (u.dressed d) = { u.dressed d with fields := fs, status }) :
    (t.dressed d).updateAt h g = t.dressed (Function.update d h (fs, status)) := by
  have hcongr : (t.dressed d).updateAt h g =
      (t.dressed d).updateAt h fun u => { u with fields := fs, status } := by
    refine updateAt_congr fun v hv hid => ?_
    obtain ⟨u, hu, rfl⟩ := within_dressed_iff.mp hv
    exact hg u hu (by rwa [dressed_id] at hid)
  rw [hcongr, updateAt_eq_mapTree (by rwa [handles_dressed]), dressed,
    (shallow_dress d).mapTree_mapTree]
  refine mapTree_congr fun u _ => ?_
  rw [Function.comp_apply, dress, dress, Function.update_apply]
  by_cases hid : u.id = h
  · rw [if_pos hid, if_pos hid]
  · rw [if_neg hid, if_neg hid]

end SchemaType

open SchemaType

namespace Store

variable {s s' : Store} {t u v : SchemaType} {d : Dress} {h : Handle} {q : QName}

/-- The store has the types of another one, dressed, in the places where they were. -/
structure Dressed (s : Store) (d : Dress) (s' : Store) : Prop where
  roots : s'.roots = s.roots.map fun e => { e with type := e.type.dressed d }
  byName : s'.byName = s.byName
  byHandle : s'.byHandle = s.byHandle
  nextHandle : s'.nextHandle = s.nextHandle

/-- What the types of a store are dressed in. -/
def ownDress (s : Store) : Dress := fun h =>
  match (walkAll s.types).find? (·.id == h) with
  | some u => (u.fields, u.status)
  | none => ([], .raw)

theorem ownDress_id (hs : s.handles.Nodup) (hu : s.Holds u) :
    s.ownDress u.id = (u.fields, u.status) := by
  rw [← map_id_walkAll] at hs
  rw [ownDress, (Lists.find?_key_eq_some_iff hs).mpr ⟨holds_iff_mem_walkAll.mp hu, rfl⟩]

theorem dressed_ownDress (hs : s.handles.Nodup) : s.Dressed s.ownDress s where
  roots := by
    refine ((List.map_congr_left fun e he => ?_).trans (List.map_id _)).symm
    rw [dressed_self fun u hu => ownDress_id hs ⟨e.type, List.mem_map_of_mem he, hu⟩]
    rfl
  byName := rfl
  byHandle := rfl
  nextHandle := rfl

namespace Dressed

theorem types (hd : s.Dressed d s') : s'.types = s.types.map (dressed d) := by
  rw [Store.types, Store.types, hd.roots, List.map_map, List.map_map]
  rfl

theorem walkAll (hd : s.Dressed d s') :
    SchemaType.walkAll s'.types = (SchemaType.walkAll s.types).map (dressed d) := by
  rw [hd.types, walkAll_map_dressed]

theorem holds_iff (hd : s.Dressed d s') : s'.Holds v ↔ ∃ u, s.Holds u ∧ u.dressed d = v :=
  holds_iff_of_mapTree (shallow_dress d) hd.types

theorem holds (hd : s.Dressed d s') (hu : s.Holds u) : s'.Holds (u.dressed d) :=
  hd.holds_iff.mpr ⟨u, hu, rfl⟩

theorem handles (hd : s.Dressed d s') : s'.handles = s.handles :=
  handles_of_mapTree (shallow_dress d) hd.types

theorem outline (hd : s.Dressed d s') :
    s'.roots.map Entry.outline = s.roots.map Entry.outline := by
  rw [hd.roots, List.map_map]
  refine List.map_congr_left fun e _ => ?_
  simp only [Function.comp_apply, Entry.outline, dressed_id, dressed_qname, dressed_tag]

theorem sound (hs : s.Sound) (hd : s.Dressed d s') : s'.Sound :=
  hs.of_outline hd.outline (hd.handles ▸ List.Sublist.refl _) hd.nextHandle hd.byName hd.byHandle

theorem lookup? (hs : s.Sound) (hd : s.Dressed d s') (q : QName) {p : SchemaType → Bool}
    (hp : ∀ t, p (t.dressed d) = p t) : s'.lookup? q p = (s.lookup? q p).map (dressed d) := by
  rw [hs.lookup?_eq, (hd.sound hs).lookup?_eq, hd.types, List.find?_map]
  refine congrArg (Option.map _) (congrArg (List.find? · _) (funext fun u => ?_))
  rw [Function.comp_apply, dressed_qname, hp]

/-- Only what the types are dressed in matters. -/
theorem congr {d' : Dress} (hd : s.Dressed d s') (heq : ∀ u, s.Holds u → d' u.id = d u.id) :
    s.Dressed d' s' where
  roots := by
    rw [hd.roots]
    refine List.map_congr_left fun e he => ?_
    rw [dressed_congr fun u hu => heq u ⟨e.type, List.mem_map_of_mem he, hu⟩]
  byName := hd.byName
  byHandle := hd.byHandle
  nextHandle := hd.nextHandle

/-- A change of the fields and the status of one type. -/
theorem update (hs : s.Sound) (hd : s.Dressed d s') (hu : s.Holds u) {g : SchemaType → SchemaType}
    {fs : List Field} {status : Status}
    (hg : g (u.dressed d) = { u.dressed d with fields := fs, status }) :
    s.Dressed (Function.update d u.id (fs, status)) (s'.update u.id g) where
  roots := by
    rw [roots_update, hd.roots, List.map_map]
    refine List.map_congr_left fun e he => ?_
    have hmem : e.type ∈ s.types := List.mem_map_of_mem he
    rw [Function.comp_apply, updateAt_dressed (nodup_handles_of_mem hs.handles hmem)]
    intro v hv hid
    obtain rfl := Holds.eq_of_id hs.handles ⟨e.type, hmem, hv⟩ hu hid
    exact hg
  byName := hd.byName
  byHandle := hd.byHandle
  nextHandle := hd.nextHandle

end Dressed

-- ---------------------------------------------------------------------------
-- Lineage
-- ---------------------------------------------------------------------------

/-- A look-up by handle finds what has the handle. -/
theorem ofHandle?_eq (hs : s.Sound) (hindex : s.IndexedByHandle) (h : Handle) :
    s.ofHandle? h = (SchemaType.walkAll s.types).find? (·.id == h) := by
  have hnodup := hs.handles
  rw [← map_id_walkAll] at hnodup
  rw [ofHandle?]
  cases hkey : s.byHandle.get? h with
  | none => rfl
  | some key =>
    obtain ⟨e, he, rfl, rfl⟩ := (hindex h key).mp hkey
    have hmem := holds_iff_mem_walkAll.mp (holds_of_mem_types (List.mem_map_of_mem he))
    dsimp only
    rw [typeOfKey?_of_mem hs.keys he, (Lists.find?_key_eq_some_iff hnodup).mpr ⟨hmem, rfl⟩]

theorem holds_of_ofHandle? (hs : s.Sound) (hindex : s.IndexedByHandle)
    (hu : s.ofHandle? h = some u) : s.Holds u ∧ u.id = h := by
  rw [ofHandle?_eq hs hindex] at hu
  exact ⟨holds_iff_mem_walkAll.mpr (List.mem_of_find?_eq_some hu), by simpa using List.find?_some hu⟩

/-- The bases of a type are held, and the type is none of them. -/
theorem holds_of_mem_lineageFrom (hs : s.Sound) (hindex : s.IndexedByHandle) {steps : Nat}
    {queue : List Extension} {seen : List Handle} (hu : u ∈ s.lineageFrom steps queue seen) :
    s.Holds u ∧ u.id ∉ seen := by
  induction steps generalizing queue seen with
  | zero => cases queue <;> exact absurd hu List.not_mem_nil
  | succ steps ih =>
    cases queue with
    | nil => exact absurd hu List.not_mem_nil
    | cons ext queue =>
      rw [lineageFrom] at hu
      split at hu
      case isTrue => exact ih hu
      case isFalse hnew =>
        cases hbase : s.ofHandle? ext.type.reference with
        | none =>
          simp only [hbase] at hu
          exact (ih hu).imp_right fun hnot hmem => hnot (List.mem_cons_of_mem _ hmem)
        | some base =>
          simp only [hbase] at hu
          obtain rfl | hu := List.mem_cons.mp hu
          · obtain ⟨hheld, hid⟩ := holds_of_ofHandle? hs hindex hbase
            refine ⟨hheld, fun hmem => hnew ?_⟩
            rw [← hid]
            simp [hmem]
          · exact (ih hu).imp_right fun hnot hmem => hnot (List.mem_cons_of_mem _ hmem)

theorem holds_of_mem_lineage (hs : s.Sound) (hindex : s.IndexedByHandle) (hu : u ∈ s.lineage t) :
    s.Holds u ∧ u.id ≠ t.id :=
  (holds_of_mem_lineageFrom hs hindex hu).imp_right fun hnot hid =>
    hnot (hid ▸ List.mem_singleton_self _)

/-- The same types are followed whenever the same handles lead to the same types. -/
theorem lineageFrom_map {g : SchemaType → SchemaType} (hg : ∀ u, (g u).extensions = u.extensions)
    (hfind : ∀ h, s'.ofHandle? h = (s.ofHandle? h).map g) (steps : Nat) (queue : List Extension)
    (seen : List Handle) :
    s'.lineageFrom steps queue seen = (s.lineageFrom steps queue seen).map g := by
  induction steps generalizing queue seen with
  | zero => cases queue <;> rfl
  | succ steps ih =>
    cases queue with
    | nil => rfl
    | cons ext queue =>
      rw [lineageFrom, lineageFrom, hfind]
      split
      case isTrue => exact ih ..
      case isFalse =>
        cases s.ofHandle? ext.type.reference with
        | none => exact ih ..
        | some base =>
          rw [Option.map_some, List.map_cons, ← ih, ← hg base]

theorem Dressed.indexedByHandle (hd : s.Dressed d s') (hindex : s.IndexedByHandle) :
    s'.IndexedByHandle := by
  intro h k
  rw [hd.byHandle, hindex h k, hd.roots]
  simp

theorem Dressed.ofHandle? (hs : s.Sound) (hindex : s.IndexedByHandle) (hd : s.Dressed d s')
    (h : Handle) : s'.ofHandle? h = (s.ofHandle? h).map (dressed d) := by
  rw [ofHandle?_eq hs hindex, ofHandle?_eq (hd.sound hs) (hd.indexedByHandle hindex), hd.walkAll,
    List.find?_map]
  refine congrArg (Option.map _) (congrArg (List.find? · _) (funext fun u => ?_))
  rw [Function.comp_apply, dressed_id]

theorem Dressed.lineage (hs : s.Sound) (hindex : s.IndexedByHandle) (hd : s.Dressed d s')
    (t : SchemaType) : s'.lineage (t.dressed d) = (s.lineage t).map (dressed d) := by
  have hbound : s'.inheritanceBound (t.dressed d) = s.inheritanceBound t := by
    rw [inheritanceBound, inheritanceBound, hd.walkAll, List.map_map, dressed_extensions]
    simp only [Function.comp_def, dressed_extensions]
  rw [Store.lineage, Store.lineage, hbound, dressed_extensions, dressed_id]
  exact lineageFrom_map (dressed_extensions d) (hd.ofHandle? hs hindex) ..

/-- The fields that a dressed type inherits are those that its bases are dressed in. -/
theorem Dressed.map_heritage (hs : s.Sound) (hindex : s.IndexedByHandle) (hd : s.Dressed d s')
    (t : SchemaType) :
    (s'.heritage (t.dressed d)).map (·.2) = (s.lineage t).flatMap fun b => (d b.id).1 := by
  rw [map_snd_heritage, hd.lineage hs hindex, List.flatMap_map]
  exact List.flatMap_congr fun b _ => dressed_fields d b

end Store

end Schemata
