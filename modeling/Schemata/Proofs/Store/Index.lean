import Mathlib.Data.List.Pairwise
import Schemata.Proofs.Lists
import Schemata.Proofs.Model.Changes
import Schemata.Store.Basic

/-!
# The types and the indices of a store

Roots and what is nested in them, by handle. Handles that tell these types apart make a look-up by
handle find the type that has it, whatever is kept aside.

The index by name lists the roots of a name, in order, by their entry numbers. It is brought up to date
name by name: what the roots say of a name replaces what the index has said, and the index keeps what it
says of other names.

A new type becomes the last root, under the next entry number; its types without a handle get the
next handles.
-/

-- ---------------------------------------------------------------------------
-- Types by handle
-- ---------------------------------------------------------------------------

namespace Schemata.Store

variable {s : Store} {t u : SchemaType} {e : Entry} {h : Handle}

/-- The handles of the roots and of all that is nested in them. -/
def handles (s : Store) : List Handle :=
  s.types.flatMap SchemaType.handles

/-- The type is a root or nested in one. -/
def Holds (s : Store) (u : SchemaType) : Prop :=
  ∃ t ∈ s.types, SchemaType.Within u t

theorem mem_handles_iff : h ∈ s.handles ↔ ∃ u, s.Holds u ∧ u.id = h :=
  SchemaType.mem_flatMap_handles_iff

theorem Holds.within (hu : s.Holds u) {v : SchemaType} (hv : SchemaType.Within v u) : s.Holds v := by
  obtain ⟨t, ht, hut⟩ := hu
  exact ⟨t, ht, hv.trans hut⟩

theorem holds_of_mem_types (ht : t ∈ s.types) : s.Holds t :=
  ⟨t, ht, .self⟩

theorem holds_iff_mem_walkAll : s.Holds u ↔ u ∈ SchemaType.walkAll s.types :=
  SchemaType.mem_walkAll_iff.symm

theorem map_id_walkAll (s : Store) : (SchemaType.walkAll s.types).map (·.id) = s.handles := by
  rw [SchemaType.walkAll_eq_flatMap, List.map_flatMap]
  rfl

section

variable {s' : Store} {g : SchemaType → SchemaType}

/-- A store whose roots are those of another one, changed throughout, holds what that one holds, each
with the change. -/
theorem holds_iff_of_mapTree (hg : SchemaType.Shallow g)
    (htypes : s'.types = s.types.map (SchemaType.mapTree g)) : s'.Holds t ↔ ∃ u, s.Holds u ∧ u.mapTree g = t := by
  simp only [holds_iff_mem_walkAll, htypes, hg.walkAll_map_mapTree, List.mem_map]

theorem handles_of_mapTree (hg : SchemaType.Shallow g)
    (htypes : s'.types = s.types.map (SchemaType.mapTree g)) : s'.handles = s.handles := by
  rw [handles, handles, htypes, List.flatMap_map]
  exact List.flatMap_congr fun t _ => hg.handles_mapTree t

end

theorem Holds.eq_of_id (hs : s.handles.Nodup) (ht : s.Holds t) (hu : s.Holds u)
    (hid : t.id = u.id) : t = u := by
  rw [← map_id_walkAll] at hs
  exact List.inj_on_of_nodup_map hs (holds_iff_mem_walkAll.mp ht) (holds_iff_mem_walkAll.mp hu) hid

theorem nodup_handles_of_mem (hs : s.handles.Nodup) (ht : t ∈ s.types) : t.handles.Nodup :=
  (List.nodup_flatMap.mp hs).1 t ht

/-- Roots share no handles. -/
theorem eq_of_mem_handles {t' : SchemaType} (hs : s.handles.Nodup) (ht : t ∈ s.types)
    (ht' : t' ∈ s.types) (hh : h ∈ t.handles) (hh' : h ∈ t'.handles) : t = t' := by
  by_contra hne
  have hdisjoint := (List.nodup_flatMap.mp hs).2
  have hsymm : Std.Symm (Function.onFun List.Disjoint SchemaType.handles) :=
    ⟨fun _ _ hab _ ha hb => hab hb ha⟩
  exact hdisjoint.forall ht ht' hne hh hh'

theorem nodup_root_ids (hs : s.handles.Nodup) : (s.roots.map (·.type.id)).Nodup := by
  have hsub : (s.roots.map (·.type.id)).Sublist s.handles := by
    unfold handles types
    rw [List.flatMap_map]
    generalize s.roots = es
    induction es with
    | nil => exact .slnil
    | cons e es ih =>
      rw [List.map_cons, List.flatMap_cons, SchemaType.handles_eq]
      exact (ih.trans (List.sublist_append_right _ _)).cons_cons _
  exact hs.sublist hsub

/-- A look-up by handle goes through the roots in order, then through what is kept aside. -/
theorem get?_eq (s : Store) (h : Handle) :
    s.get? h = ((SchemaType.walkAll s.types).find? (·.id == h)).or
      (s.aside.findSome? fun e => e.type.find? h) := by
  rw [get?, entries, List.findSome?_append, SchemaType.walkAll_eq_flatMap, List.find?_flatMap, types,
    List.findSome?_map]
  rfl

theorem get?_of_holds (hs : s.handles.Nodup) (hu : s.Holds u) : s.get? u.id = some u := by
  rw [← map_id_walkAll] at hs
  rw [get?_eq, (Lists.find?_key_eq_some_iff hs).mpr ⟨holds_iff_mem_walkAll.mp hu, rfl⟩, Option.some_or]

theorem exists_get? (hh : h ∈ s.handles) : ∃ t, s.get? h = some t := by
  obtain ⟨u, hu, rfl⟩ := mem_handles_iff.mp hh
  have hsome : ((SchemaType.walkAll s.types).find? (·.id == u.id)).isSome := by
    rw [List.find?_isSome]
    exact ⟨u, holds_iff_mem_walkAll.mp hu, beq_self_eq_true _⟩
  obtain ⟨t, ht⟩ := Option.isSome_iff_exists.mp hsome
  exact ⟨t, by rw [get?_eq, ht, Option.some_or]⟩

/-- Roots of one number are one root. -/
def RootsApart (s : Store) : Prop :=
  ∀ e ∈ s.roots, ∀ e' ∈ s.roots, e.key = e'.key → e = e'

theorem rootsApart_of_nodup (hkeys : (s.roots.map (·.key)).Nodup) : s.RootsApart :=
  fun _ he _ he' hkey => List.inj_on_of_nodup_map hkeys he he' hkey

theorem RootsApart.typeOfKey? (hs : s.RootsApart) (he : e ∈ s.roots) :
    s.typeOfKey? e.key = some e.type := by
  have hfound : s.roots.find? (·.key == e.key) = some e := by
    cases hfind : s.roots.find? (·.key == e.key) with
    | none => simpa using List.find?_eq_none.mp hfind e he
    | some e' =>
      rw [hs e' (List.mem_of_find?_eq_some hfind) e he (by simpa using List.find?_some hfind)]
  rw [Store.typeOfKey?, entries, List.find?_append, hfound, Option.some_or, Option.map_some]

theorem typeOfKey?_of_mem (hkeys : (s.roots.map (·.key)).Nodup) (he : e ∈ s.roots) :
    s.typeOfKey? e.key = some e.type :=
  (rootsApart_of_nodup hkeys).typeOfKey? he

/-- The types of entries that are roots. -/
theorem RootsApart.filterMap_typeOfKey? (hs : s.RootsApart) {keys : List Nat}
    (hkeys : ∀ k ∈ keys, ∃ e ∈ s.roots, e.key = k) :
    t ∈ keys.filterMap s.typeOfKey? ↔ ∃ e ∈ s.roots, e.key ∈ keys ∧ e.type = t := by
  rw [List.mem_filterMap]
  constructor
  · rintro ⟨k, hk, ht⟩
    obtain ⟨e, he, rfl⟩ := hkeys k hk
    rw [hs.typeOfKey? he] at ht
    exact ⟨e, he, hk, Option.some.inj ht⟩
  · rintro ⟨e, he, hk, rfl⟩
    exact ⟨e.key, hk, hs.typeOfKey? he⟩

theorem filterMap_typeOfKey? (hroots : (s.roots.map (·.key)).Nodup) {keys : List Nat}
    (hkeys : ∀ k ∈ keys, ∃ e ∈ s.roots, e.key = k) :
    t ∈ keys.filterMap s.typeOfKey? ↔ ∃ e ∈ s.roots, e.key ∈ keys ∧ e.type = t :=
  (rootsApart_of_nodup hroots).filterMap_typeOfKey? hkeys

@[simp] theorem types_update (s : Store) (h : Handle) (g : SchemaType → SchemaType) :
    (s.update h g).types = s.types.map (SchemaType.updateAt h g) := by
  simp [update, types, Function.comp_def]

end Schemata.Store

-- ---------------------------------------------------------------------------
-- Indices
-- ---------------------------------------------------------------------------

namespace Schemata

namespace Index

variable {κ α : Type} [BEq κ] [LawfulBEq κ]

theorem get?_erase {k k' : κ} (m : Index κ α) (hne : k' ≠ k) : (m.erase k).get? k' = m.get? k' := by
  unfold erase get?
  induction m.pairs with
  | nil => rfl
  | cons p pairs ih =>
    by_cases hp : p.1 = k
    · have hpk' : (k' == p.1) = false := by simpa [hp] using hne
      rw [List.filter_cons_of_neg (by simp [hp]), ih, List.lookup_cons, hpk']
    · rw [List.filter_cons_of_pos (by simp [hp]), List.lookup_cons, List.lookup_cons, ih]

theorem get?_erase_self (m : Index κ α) (k : κ) : (m.erase k).get? k = none := by
  unfold erase get?
  refine List.lookup_eq_none_iff.mpr fun p hp => ?_
  have hne : p.1 ≠ k := by simpa using (List.mem_filter.mp hp).2
  exact bne_iff_ne.mpr hne.symm

theorem get?_insert (m : Index κ α) (k k' : κ) (a : α) :
    (m.insert k a).get? k' = if k' == k then some a else m.get? k' := by
  change List.lookup k' ((k, a) :: (m.erase k).pairs) = _
  rw [List.lookup_cons]
  by_cases hk : k' = k
  · simp [hk]
  · have hne : (k' == k) = false := by simpa using hk
    rw [hne]
    exact m.get?_erase hk

end Index

namespace Store

variable {s : Store} {t : SchemaType} {e : Entry}

theorem get?_foldl_erase {m : Index Handle Nat} {h : Handle} (es : List Entry)
    (hes : ∀ e ∈ es, e.type.id ≠ h) : (es.foldl (fun m e => m.erase e.type.id) m).get? h = m.get? h := by
  induction es generalizing m with
  | nil => rfl
  | cons e es ih =>
    obtain ⟨he, hes⟩ := List.forall_mem_cons.mp hes
    rw [List.foldl_cons, ih hes, Index.get?_erase _ he.symm]

theorem get?_foldl_erase_self {m : Index Handle Nat} {h : Handle} (es : List Entry)
    (hes : ∃ e ∈ es, e.type.id = h) : (es.foldl (fun m e => m.erase e.type.id) m).get? h = none := by
  induction es generalizing m with
  | nil => exact absurd hes (by simp)
  | cons e es ih =>
    rw [List.foldl_cons]
    by_cases hlater : ∃ e ∈ es, e.type.id = h
    · exact ih hlater
    · obtain ⟨_, he, rfl⟩ := hes
      obtain rfl | he := List.mem_cons.mp he
      · rw [get?_foldl_erase es fun e' he' hid => hlater ⟨e', he', hid⟩, Index.get?_erase_self]
      · exact absurd ⟨_, he, rfl⟩ hlater

theorem reindex_eq (s : Store) (q : QName) : ∃ byName, s.reindex q = { s with byName } ∧
    ∀ q', (byName.get? q').getD [] = if q' = q then s.namesakes q else (s.byName.get? q').getD [] := by
  unfold reindex
  cases hkeys : s.namesakes q with
  | nil =>
    refine ⟨_, rfl, fun q' => ?_⟩
    by_cases hq : q' = q
    · simp [hq, Index.get?_erase_self]
    · simp [hq, Index.get?_erase _ hq]
  | cons k keys =>
    refine ⟨_, rfl, fun q' => ?_⟩
    by_cases hq : q' = q
    · simp [hq, Index.get?_insert]
    · simp [hq, Index.get?_insert]

theorem foldl_reindex_eq (s : Store) (qs : List QName) : ∃ byName,
    qs.foldl reindex s = { s with byName } ∧
      ∀ q, (byName.get? q).getD [] = if q ∈ qs then s.namesakes q else (s.byName.get? q).getD [] := by
  induction qs generalizing s with
  | nil => exact ⟨s.byName, rfl, fun q => by simp⟩
  | cons q qs ih =>
    obtain ⟨byName, heq, hget⟩ := s.reindex_eq q
    obtain ⟨byName', heq', hget'⟩ := ih (s.reindex q)
    refine ⟨byName', ?_, fun q' => ?_⟩
    · rw [List.foldl_cons, heq', heq]
    · rw [hget', heq]
      by_cases hq : q' ∈ qs
      · rw [if_pos hq, if_pos (List.mem_cons_of_mem _ hq)]
        rfl
      · rw [if_neg hq, hget]
        by_cases hqt : q' = q
        · rw [if_pos hqt, if_pos (hqt ▸ List.mem_cons_self), hqt]
        · rw [if_neg hqt, if_neg fun hmem => (List.mem_cons.mp hmem).elim hqt hq]

/-- The index by name says what the roots say. -/
def Indexed (s : Store) : Prop :=
  ∀ q, (s.byName.get? q).getD [] = s.namesakes q

/-- It is enough to bring the index up to date for the names of which the roots say something new. -/
theorem Indexed.foldl_reindex (hs : s.Indexed) (s' : Store) (qs : List QName)
    (hbyName : s'.byName = s.byName) (hqs : ∀ q ∉ qs, s'.namesakes q = s.namesakes q) :
    (qs.foldl reindex s').Indexed := by
  obtain ⟨byName, heq, hget⟩ := foldl_reindex_eq s' qs
  intro q
  rw [heq]
  refine (hget q).trans ?_
  split
  case isTrue => rfl
  case isFalse hq =>
    rw [hbyName, hs q]
    exact (hqs q hq).symm

/-- A root comes last among its namesakes. -/
theorem Indexed.append {s' : Store} (hs : s.Indexed) (hroots : s'.roots = s.roots ++ [e])
    (hbyName : s'.byName =
      s.byName.insert e.type.qname ((s.byName.get? e.type.qname).getD [] ++ [e.key])) :
    s'.Indexed := by
  intro q
  rw [hbyName, Index.get?_insert, namesakes, hroots, List.filter_append, List.map_append]
  by_cases hq : q = e.type.qname
  · simp [hq, hs e.type.qname, namesakes]
  · simp [hq, Ne.symm hq, hs q, namesakes]

theorem RootsApart.bucket (hs : s.RootsApart) (hindex : s.Indexed) (q : QName) :
    s.bucket q = s.roots.filter (·.type.qname == q) := by
  have hfound : ∀ es : List Entry, es ⊆ s.roots →
      (es.map (·.key)).filterMap (fun k => (s.typeOfKey? k).map fun t => (⟨k, t⟩ : Entry)) = es := by
    intro es hes
    induction es with
    | nil => rfl
    | cons e es ih =>
      obtain ⟨he, hes⟩ := List.cons_subset.mp hes
      rw [List.map_cons, List.filterMap_cons, hs.typeOfKey? he, Option.map_some]
      exact congrArg (e :: ·) (ih hes)
  rw [Store.bucket, hindex, namesakes]
  exact hfound _ (List.filter_subset_self _)

theorem Indexed.bucket (hs : s.Indexed) (hkeys : (s.roots.map (·.key)).Nodup) (q : QName) :
    s.bucket q = s.roots.filter (·.type.qname == q) :=
  (rootsApart_of_nodup hkeys).bucket hs q

/-- A look-up by name finds the first root that has the name and satisfies the condition. -/
theorem Indexed.lookup?_eq (hs : s.Indexed) (hkeys : (s.roots.map (·.key)).Nodup) (q : QName)
    (p : SchemaType → Bool) : s.lookup? q p = s.types.find? fun t => t.qname == q && p t := by
  rw [lookup?, lookupEntry?, hs.bucket hkeys, List.find?_filter, types, List.find?_map]
  simp only [Bool.decide_and, Bool.decide_eq_true]
  rfl

-- ---------------------------------------------------------------------------
-- Renaming
-- ---------------------------------------------------------------------------

theorem rename_of_typeOfKey? {key : Nat} (ht : s.typeOfKey? key = some t) (q : QName) :
    s.rename key q =
      [t.qname, q].foldl reindex (s.updateEntry key fun t => { t with qname := q }) := by
  unfold rename
  rw [ht]
  rfl

theorem rename_of_typeOfKey?_none {key : Nat} (ht : s.typeOfKey? key = none) (q : QName) :
    s.rename key q = s := by
  unfold rename
  rw [ht]

theorem rename_eq (hkeys : (s.roots.map (·.key)).Nodup) (he : e ∈ s.roots) (q : QName) : ∃ byName,
    s.rename e.key q = { s.updateEntry e.key (fun t => { t with qname := q }) with byName } := by
  rw [rename_of_typeOfKey? (typeOfKey?_of_mem hkeys he)]
  obtain ⟨byName, heq, -⟩ := foldl_reindex_eq _ _
  exact ⟨byName, heq⟩

/-- A renamed entry has another name than all others, before and after. -/
theorem namesakes_updateEntry (hkeys : (s.roots.map (·.key)).Nodup) {key : Nat}
    (ht : s.typeOfKey? key = some t) {q q' : QName} (hq' : q' ∉ [t.qname, q]) :
    (s.updateEntry key fun t => { t with qname := q }).namesakes q' = s.namesakes q' := by
  simp only [List.mem_cons, List.not_mem_nil, or_false, not_or] at hq'
  simp only [namesakes, updateEntry, List.filter_map, List.map_map]
  have hfilter : s.roots.filter (·.type.qname == q') = s.roots.filter
      ((·.type.qname == q') ∘ fun e =>
        if e.key = key then { e with type := { e.type with qname := q } } else e) := by
    refine List.filter_congr fun e he => ?_
    rw [Function.comp_apply]
    by_cases hkey : e.key = key
    · rw [← hkey, typeOfKey?_of_mem hkeys he, Option.some.injEq] at ht
      simp [hkey, ht, Ne.symm hq'.1, Ne.symm hq'.2]
    · rw [if_neg hkey]
  rw [← hfilter]
  refine List.map_congr_left fun e _ => ?_
  rw [Function.comp_apply]
  split
  · rfl
  · rfl

theorem Indexed.rename (hkeys : (s.roots.map (·.key)).Nodup) (hs : s.Indexed) (key : Nat)
    (q : QName) : (s.rename key q).Indexed := by
  cases ht : s.typeOfKey? key with
  | none => rwa [rename_of_typeOfKey?_none ht]
  | some t =>
    rw [rename_of_typeOfKey? ht]
    exact hs.foldl_reindex _ _ rfl fun q' hq' => namesakes_updateEntry hkeys ht hq'

end Store

-- ---------------------------------------------------------------------------
-- Insertion of types
-- ---------------------------------------------------------------------------

namespace SchemaType

mutual

theorem renumber_of_not_due {due : Handle → Bool} : (t : SchemaType) → (next : Handle) →
    (∀ h ∈ t.handles, due h = false) → t.renumber due next = (t, next)
  | ⟨id, _, _, _, _, _, _, _, _, _, _, _, _, _, _, _, inner, _, _, _⟩, next, hdue => by
    rw [handles_eq] at hdue
    simp only [renumber, hdue id List.mem_cons_self, Bool.false_eq_true, if_false]
    rw [renumberAll_of_not_due inner next fun h hh => hdue h (List.mem_cons_of_mem _ hh)]

theorem renumberAll_of_not_due {due : Handle → Bool} : (ts : List SchemaType) → (next : Handle) →
    (∀ h ∈ ts.flatMap handles, due h = false) → renumberAll due ts next = (ts, next)
  | [], _, _ => rfl
  | t :: ts, next, hdue => by
    rw [List.flatMap_cons] at hdue
    simp only [renumberAll]
    rw [renumber_of_not_due t next fun h hh => hdue h (List.mem_append_left _ hh)]
    dsimp only
    rw [renumberAll_of_not_due ts next fun h hh => hdue h (List.mem_append_right _ hh)]

end

theorem assignHandles_of_handles {t : SchemaType} (ht : 0 ∉ t.handles) (next : Handle) :
    t.assignHandles next = (t, next) :=
  renumber_of_not_due t next fun _ hh => beq_eq_false_iff_ne.mpr fun hzero => ht (hzero ▸ hh)

end SchemaType

namespace Store

variable {s : Store} {t : SchemaType}

/-- Nothing is kept aside, entry numbers differ, and the next one is new. -/
structure Fresh (s : Store) : Prop where
  aside : s.aside = []
  nodup : (s.roots.map (·.key)).Nodup
  keys : ∀ e ∈ s.roots, e.key < s.nextKey

theorem Fresh.empty (config : Config) : Fresh { config } :=
  ⟨rfl, List.nodup_nil, fun _ he => absurd he List.not_mem_nil⟩

/-- The next entry number is new. -/
def KeysBelow (s : Store) : Prop :=
  ∀ e ∈ s.entries, e.key < s.nextKey

theorem Fresh.keysBelow (hs : s.Fresh) : s.KeysBelow := by
  unfold KeysBelow entries
  rw [hs.aside, List.append_nil]
  exact hs.keys

theorem KeysBelow.update (hs : s.KeysBelow) (h : Handle) (g : SchemaType → SchemaType) :
    (s.update h g).KeysBelow := by
  intro e he
  rw [entries, Store.update, ← List.map_append] at he
  obtain ⟨e₀, he₀, rfl⟩ := List.mem_map.mp he
  exact hs e₀ he₀

theorem KeysBelow.updateEntry (hs : s.KeysBelow) (key : Nat) (g : SchemaType → SchemaType) :
    (s.updateEntry key g).KeysBelow := by
  intro e he
  rw [entries, Store.updateEntry, ← List.map_append] at he
  obtain ⟨e₀, he₀, rfl⟩ := List.mem_map.mp he
  split
  · exact hs e₀ he₀
  · exact hs e₀ he₀

theorem setAside_eq (s : Store) (ts : List SchemaType) :
    ∃ aside nextKey, s.setAside ts = { s with aside, nextKey } ∧ s.nextKey ≤ nextKey := by
  unfold setAside
  induction ts generalizing s with
  | nil => exact ⟨s.aside, s.nextKey, rfl, Nat.le_refl _⟩
  | cons t ts ih =>
    obtain ⟨aside, nextKey, heq, hle⟩ := ih (s.enter t).2
    exact ⟨aside, nextKey, heq, Nat.le_of_succ_le hle⟩

theorem KeysBelow.setAside (hs : s.KeysBelow) (ts : List SchemaType) : (s.setAside ts).KeysBelow := by
  unfold Store.setAside
  induction ts generalizing s with
  | nil => exact hs
  | cons t ts ih =>
    refine ih fun e he => ?_
    simp only [entries, enter, ← List.append_assoc] at he
    obtain he | he := List.mem_append.mp he
    · exact Nat.lt_succ_of_lt (hs e he)
    · rw [List.mem_singleton.mp he]
      exact Nat.lt_succ_self _

theorem typeOfKey?_enter (hs : s.KeysBelow) (t : SchemaType) :
    (s.enter t).2.typeOfKey? s.nextKey = some t := by
  have hnone : s.entries.find? (·.key == s.nextKey) = none :=
    List.find?_eq_none.mpr fun e he => by simpa using Nat.ne_of_lt (hs e he)
  simp only [typeOfKey?, enter, entries, ← List.append_assoc]
  rw [List.find?_append, ← entries, hnone]
  simp

theorem updateEntry_enter (hs : s.KeysBelow) (t u : SchemaType) :
    (s.enter t).2.updateEntry s.nextKey (fun _ => u) = (s.enter u).2 := by
  have hmap : ∀ es ⊆ s.entries,
      es.map (fun e => if e.key = s.nextKey then { e with type := u } else e) = es := by
    intro es hes
    refine (List.map_congr_left fun e he => if_neg ?_).trans (List.map_id _)
    exact Nat.ne_of_lt (hs e (hes he))
  simp only [updateEntry, enter, List.map_append, hmap s.roots (List.subset_append_left _ _),
    hmap s.aside (List.subset_append_right _ _), List.map_cons, if_true, List.map_nil]

theorem insert_eq (hs : s.KeysBelow) (t : SchemaType) :
    s.insert t =
      { s with
        roots := s.roots ++ [⟨s.nextKey, (t.assignHandles s.nextHandle).1⟩]
        byName := s.byName.insert (t.assignHandles s.nextHandle).1.qname
          ((s.byName.get? (t.assignHandles s.nextHandle).1.qname).getD [] ++ [s.nextKey])
        byHandle := s.byHandle.insert (t.assignHandles s.nextHandle).1.id s.nextKey
        nextKey := s.nextKey + 1
        nextHandle := (t.assignHandles s.nextHandle).2 } := by
  have hassigned : (s.enter t).2.assignHandles s.nextKey =
      ({ s with nextHandle := (t.assignHandles s.nextHandle).2 }.enter
        (t.assignHandles s.nextHandle).1).2 := by
    rw [assignHandles, typeOfKey?_enter hs]
    dsimp only
    rw [updateEntry_enter hs]
    rfl
  have hfound := typeOfKey?_enter (s := { s with nextHandle := (t.assignHandles s.nextHandle).2 }) hs
    (t.assignHandles s.nextHandle).1
  have hfilter : s.aside.filter (·.key != s.nextKey) = s.aside :=
    List.filter_eq_self.mpr fun e he =>
      bne_iff_ne.mpr (Nat.ne_of_lt (hs e (List.mem_append_right _ he)))
  change (s.enter t).2.add s.nextKey = _
  rw [add, hassigned]
  dsimp only at hfound ⊢
  rw [hfound]
  simp [enter, hfilter]

theorem KeysBelow.insert (hs : s.KeysBelow) (t : SchemaType) : (s.insert t).KeysBelow := by
  rw [insert_eq hs]
  intro e he
  simp only [entries, List.mem_append, List.mem_singleton] at he
  obtain (he | rfl) | he := he
  · exact Nat.lt_succ_of_lt (hs e (List.mem_append_left _ he))
  · exact Nat.lt_succ_self _
  · exact Nat.lt_succ_of_lt (hs e (List.mem_append_right _ he))

theorem Fresh.insert (hs : s.Fresh) (t : SchemaType) : (s.insert t).Fresh := by
  rw [insert_eq hs.keysBelow]
  refine ⟨hs.aside, ?_, fun e he => ?_⟩
  · rw [List.map_append, List.nodup_append]
    refine ⟨hs.nodup, List.nodup_singleton _, fun k hk k' hk' => ?_⟩
    obtain ⟨e, he, rfl⟩ := List.mem_map.mp hk
    rw [List.mem_singleton.mp hk']
    exact Nat.ne_of_lt (hs.keys e he)
  · obtain he | he := List.mem_append.mp he
    · exact Nat.lt_succ_of_lt (hs.keys e he)
    · rw [List.mem_singleton.mp he]
      exact Nat.lt_succ_self _

theorem Fresh.insertAll (hs : s.Fresh) (ts : List SchemaType) : (s.insertAll ts).Fresh := by
  induction ts generalizing s with
  | nil => exact hs
  | cons t ts ih => exact ih (hs.insert t)

/-- Types that have handles are inserted as they are. -/
theorem types_insertAll (hs : s.Fresh) (ts : List SchemaType) (hts : ∀ t ∈ ts, 0 ∉ t.handles) :
    (s.insertAll ts).types = s.types ++ ts := by
  induction ts generalizing s with
  | nil => rw [List.append_nil, insertAll, List.foldl_nil]
  | cons t ts ih =>
    have htypes : (s.insert t).types = s.types ++ [t] := by
      rw [insert_eq hs.keysBelow, SchemaType.assignHandles_of_handles (hts t List.mem_cons_self)]
      simp [types]
    rw [insertAll, List.foldl_cons, ← insertAll,
      ih (hs.insert t) fun u hu => hts u (List.mem_cons_of_mem _ hu), htypes, List.append_assoc,
      List.singleton_append]

end Store

end Schemata
