import Schemata.Proofs.Model.Copies
import Schemata.Proofs.Model.Updates
import Schemata.Proofs.Store.Index

/-!
# Sound stores

In a sound store entry numbers and handles tell types apart, the next handle is new, and both
indices say what the roots say. Insertion of new types builds sound stores, and a change of a type
keeps a store sound as long as what it adds has new handles.
-/

namespace Schemata

open SchemaType

/-- What a root is found by: its entry number, handle, name and tag. -/
def Entry.outline (e : Entry) : Nat × Handle × QName × Tag :=
  (e.key, e.type.id, e.type.qname, e.type.tag)

namespace Store

variable {s : Store} {t u v : SchemaType} {e : Entry} {h next : Handle}
  {g : SchemaType → SchemaType} {extra : List SchemaType}

/-- Handles tell the types of trees apart, and the next one is new. -/
structure Distinct (ts : List SchemaType) (next : Handle) : Prop where
  nodup : (ts.flatMap SchemaType.handles).Nodup
  below : ∀ h ∈ ts.flatMap SchemaType.handles, h < next

/-- New handles are told apart from all others. -/
theorem Distinct.extend {ts ts' : List SchemaType} {first last : Handle} (hts : Distinct ts first)
    (hextra : Numbered (extra.flatMap SchemaType.handles) first last)
    (hperm : (ts'.flatMap SchemaType.handles).Perm
      (ts.flatMap SchemaType.handles ++ extra.flatMap SchemaType.handles)) : Distinct ts' last where
  nodup := by
    rw [hperm.nodup_iff, List.nodup_append]
    refine ⟨hts.nodup, hextra.nodup, fun a ha b hb heq => ?_⟩
    have hold := hts.below a ha
    have hnew := (hextra.bounds b hb).1
    rw [heq] at hold
    exact absurd hold (Int.not_lt.mpr hnew)
  below h hh := by
    obtain hh | hh := List.mem_append.mp (hperm.mem_iff.mp hh)
    · exact Int.lt_of_lt_of_le (hts.below h hh) hextra.le
    · exact (hextra.bounds h hh).2

structure Sound (s : Store) : Prop where
  keys : (s.roots.map (·.key)).Nodup
  handles : s.handles.Nodup
  below : ∀ h ∈ s.handles, h < s.nextHandle
  byName : ∀ q, (s.byName.get? q).getD [] = s.namesakes q
  byHandle : ∀ e ∈ s.roots, s.byHandle.get? e.type.id = some e.key

theorem Sound.bucket (hs : s.Sound) (q : QName) :
    s.bucket q = s.roots.filter (·.type.qname == q) :=
  Indexed.bucket hs.byName hs.keys q

/-- A look-up by name finds the first root that has the name and satisfies the condition. -/
theorem Sound.lookup?_eq (hs : s.Sound) (q : QName) (p : SchemaType → Bool) :
    s.lookup? q p = s.types.find? fun t => t.qname == q && p t :=
  Indexed.lookup?_eq hs.byName hs.keys q p

theorem Sound.of_lookup?_eq_some (hs : s.Sound) {q : QName} {p : SchemaType → Bool}
    (ht : s.lookup? q p = some t) : t ∈ s.types ∧ t.qname = q ∧ p t = true := by
  rw [hs.lookup?_eq] at ht
  have hp := List.find?_some ht
  rw [Bool.and_eq_true, beq_iff_eq] at hp
  exact ⟨List.mem_of_find?_eq_some ht, hp⟩

theorem Sound.of_lookup?_eq_none (hs : s.Sound) {q : QName} {p : SchemaType → Bool}
    (hnone : s.lookup? q p = none) (ht : t ∈ s.types) (hq : t.qname = q) : p t = false := by
  rw [hs.lookup?_eq, List.find?_eq_none] at hnone
  simpa [hq] using hnone t ht

/-- Which root a look-up finds is a matter of the outlines, when the condition is one on handle and
tag. -/
theorem Sound.lookup?_id {s s' : Store} (hs : s.Sound) (hs' : s'.Sound)
    (houtline : s'.roots.map Entry.outline = s.roots.map Entry.outline) {p : SchemaType → Bool}
    (hp : ∀ t, p t = p { id := t.id, tag := t.tag }) (q : QName) :
    (s'.lookup? q p).map (·.id) = (s.lookup? q p).map (·.id) := by
  have houtlines : ∀ es : List Entry,
      ((es.map (·.type)).find? fun t => t.qname == q && p t).map (·.id) =
        ((es.map Entry.outline).find? fun o => o.2.2.1 == q && p { id := o.2.1, tag := o.2.2.2 }).map
          (·.2.1) := by
    intro es
    have hfun : (fun t : SchemaType => t.qname == q && p t) ∘ Entry.type =
        (fun o => o.2.2.1 == q && p { id := o.2.1, tag := o.2.2.2 }) ∘ Entry.outline := by
      funext e
      rw [Function.comp_apply, hp]
      rfl
    rw [List.find?_map, List.find?_map, hfun, Option.map_map, Option.map_map]
    rfl
  rw [hs.lookup?_eq, hs'.lookup?_eq, types, types, houtlines, houtlines, houtline]

/-- Stores of the same outlines have corresponding roots. -/
theorem exists_of_outline {s s' : Store} (houtline : s'.roots.map Entry.outline = s.roots.map Entry.outline)
    (ht : t ∈ s'.types) :
    ∃ t₀ ∈ s.types, t₀.id = t.id ∧ t₀.qname = t.qname ∧ t₀.tag = t.tag := by
  obtain ⟨e, he, rfl⟩ := List.mem_map.mp ht
  have hmem := List.mem_map_of_mem (f := Entry.outline) he
  rw [houtline] at hmem
  obtain ⟨e₀, he₀, heq⟩ := List.mem_map.mp hmem
  exact ⟨e₀.type, List.mem_map_of_mem he₀, congrArg (·.2.1) heq, congrArg (·.2.2.1) heq,
    congrArg (·.2.2.2) heq⟩

theorem roots_update (s : Store) (h : Handle) (g : SchemaType → SchemaType) :
    (s.update h g).roots = s.roots.map fun e => { e with type := e.type.updateAt h g } :=
  rfl

/-- Two changes of one type are one change. -/
theorem update_update {f : SchemaType → SchemaType} (hf : ∀ t, (f t).id = t.id) (s : Store) (h : Handle)
    (g : SchemaType → SchemaType) : (s.update h f).update h g = s.update h (g ∘ f) := by
  simp only [Store.update, List.map_map, Function.comp_def, updateAt_updateAt hf]

theorem outline_update (hg : Extends g extra) (s : Store) (h : Handle) :
    (s.update h g).roots.map Entry.outline = s.roots.map Entry.outline := by
  rw [roots_update, List.map_map]
  refine List.map_congr_left fun e _ => ?_
  simp only [Function.comp_apply, Entry.outline, hg.widens.updateAt_id, hg.updateAt_qname, hg.updateAt_tag]

theorem holds_update (hg : Extends g extra) (hs : s.handles.Nodup) (hu : s.Holds u) :
    (s.update h g).Holds (u.updateAt h g) := by
  obtain ⟨t, ht, hut⟩ := hu
  refine ⟨t.updateAt h g, ?_, hg.widens.within_updateAt (nodup_handles_of_mem hs ht) hut⟩
  rw [types_update]
  exact List.mem_map_of_mem ht

theorem holds_of_update (hg : Extends g extra) (hs : s.handles.Nodup)
    (hv : (s.update h g).Holds v) :
    (∃ u, s.Holds u ∧ u.updateAt h g = v) ∨ ∃ x ∈ extra, Within v x := by
  obtain ⟨t', ht', hv⟩ := hv
  rw [types_update] at ht'
  obtain ⟨t, ht, rfl⟩ := List.mem_map.mp ht'
  obtain ⟨u, hu, heq⟩ | hextra := hg.widens.within_of_updateAt (nodup_handles_of_mem hs ht) hv
  · exact .inl ⟨u, ⟨t, ht, hu⟩, heq⟩
  · exact .inr hextra

theorem namesakes_update (hg : Extends g extra) (s : Store) (h : Handle) (q : QName) :
    (s.update h g).namesakes q = s.namesakes q := by
  unfold namesakes
  rw [roots_update, List.filter_map, List.map_map]
  refine congrArg (List.map _) (List.filter_congr fun e _ => ?_)
  simp only [Function.comp_apply, hg.updateAt_qname]

/-- A change that adds types with new handles, and moves the next handle past them. -/
theorem Sound.update (hs : s.Sound) (hg : Extends g extra) (hh : h ∈ s.handles)
    (hextra : Numbered (extra.flatMap SchemaType.handles) s.nextHandle next) :
    Sound ({ s with nextHandle := next }.update h g) := by
  have hdistinct : Distinct ({ s with nextHandle := next }.update h g).types next := by
    refine Distinct.extend ⟨hs.handles, hs.below⟩ hextra ?_
    rw [types_update]
    exact flatMap_handles_updateAt_perm hs.handles hh fun t _ => hg.widens.handles_updateAt_perm
  constructor
  case keys =>
    rw [roots_update, List.map_map]
    exact hs.keys
  case handles => exact hdistinct.nodup
  case below => exact hdistinct.below
  case byName =>
    intro q
    rw [namesakes_update hg]
    exact hs.byName q
  case byHandle =>
    intro e he
    rw [roots_update] at he
    obtain ⟨e₀, he₀, rfl⟩ := List.mem_map.mp he
    simp only [hg.widens.updateAt_id]
    exact hs.byHandle e₀ he₀

/-- A store in which the roots keep their places and no handle is new is as sound as before. -/
theorem Sound.of_outline {s s' : Store} (hs : s.Sound)
    (houtline : s'.roots.map Entry.outline = s.roots.map Entry.outline)
    (hhandles : s'.handles.Sublist s.handles) (hnext : s'.nextHandle = s.nextHandle)
    (hbyName : s'.byName = s.byName) (hbyHandle : s'.byHandle = s.byHandle) : s'.Sound where
  keys := by
    have hkeys := congrArg (List.map (·.1)) houtline
    rw [List.map_map, List.map_map] at hkeys
    exact (congrArg List.Nodup hkeys).mpr hs.keys
  handles := hs.handles.sublist hhandles
  below h hh := hnext ▸ hs.below h (hhandles.subset hh)
  byName q := by
    have hnamesakes : ∀ s : Store, s.namesakes q =
        ((s.roots.map Entry.outline).filter (·.2.2.1 == q)).map (·.1) := by
      intro s
      rw [namesakes, List.filter_map, List.map_map]
      rfl
    rw [hbyName, hs.byName, hnamesakes, hnamesakes, houtline]
  byHandle e he := by
    have hmem := List.mem_map_of_mem (f := Entry.outline) he
    rw [houtline] at hmem
    obtain ⟨e₀, he₀, heq⟩ := List.mem_map.mp hmem
    have hid : e₀.type.id = e.type.id := congrArg (·.2.1) heq
    have hkey : e₀.key = e.key := congrArg (·.1) heq
    rw [hbyHandle, ← hid, ← hkey]
    exact hs.byHandle e₀ he₀

theorem Sound.empty (config : Config) : Sound { config } where
  keys := List.nodup_nil
  handles := List.nodup_nil
  below _ hh := absurd hh List.not_mem_nil
  byName _ := rfl
  byHandle _ he := absurd he List.not_mem_nil

theorem Sound.append (hs : s.Sound) (hbelow : s.KeysBelow)
    (ht : Numbered t.handles s.nextHandle next) :
    Sound { s with
      roots := s.roots ++ [⟨s.nextKey, t⟩]
      byName := s.byName.insert t.qname ((s.byName.get? t.qname).getD [] ++ [s.nextKey])
      byHandle := s.byHandle.insert t.id s.nextKey
      nextKey := s.nextKey + 1
      nextHandle := next } := by
  have hdistinct : Distinct (s.types ++ [t]) next := by
    have hnew : Numbered ([t].flatMap SchemaType.handles) s.nextHandle next := by
      rwa [List.flatMap_singleton]
    refine Distinct.extend ⟨hs.handles, hs.below⟩ hnew ?_
    rw [List.flatMap_append]
  have htypes : (s.roots ++ [Entry.mk s.nextKey t]).map (·.type) = s.types ++ [t] := by
    rw [List.map_append]
    rfl
  constructor
  case keys =>
    rw [List.map_append, List.nodup_append]
    refine ⟨hs.keys, List.nodup_singleton _, fun k hk k' hk' => ?_⟩
    obtain ⟨e, he, rfl⟩ := List.mem_map.mp hk
    rw [List.mem_singleton.mp hk']
    exact Nat.ne_of_lt (hbelow e (List.mem_append_left _ he))
  case handles =>
    unfold Store.handles types
    rw [htypes]
    exact hdistinct.nodup
  case below =>
    unfold Store.handles types
    rw [htypes]
    exact hdistinct.below
  case byName => exact Indexed.append (e := ⟨s.nextKey, t⟩) hs.byName rfl rfl
  case byHandle =>
    intro e he
    rw [Index.get?_insert]
    obtain he | he := List.mem_append.mp he
    · have hid : e.type.id ∈ s.handles :=
        mem_handles_iff.mpr ⟨e.type, holds_of_mem_types (List.mem_map_of_mem he), rfl⟩
      have hne : e.type.id ≠ t.id := fun heq => by
        have hold := hs.below _ hid
        have hnew := (ht.bounds t.id (SchemaType.mem_handles_iff.mpr ⟨t, .self, rfl⟩)).1
        rw [heq] at hold
        exact absurd hold (Int.not_lt.mpr hnew)
      simp [hne, hs.byHandle e he]
    · simp [List.mem_singleton.mp he]

/-- New types, which have no handles yet, make a store that is sound. -/
theorem Sound.insertAll (hs : s.Sound) (hfresh : s.Fresh) {ts : List SchemaType}
    (hts : ∀ t ∈ ts, ∀ h ∈ t.handles, h = 0) : (s.insertAll ts).Sound := by
  induction ts generalizing s with
  | nil => exact hs
  | cons t ts ih =>
    have hinsert : (s.insert t).Sound := by
      rw [insert_eq hfresh.keysBelow]
      exact hs.append hfresh.keysBelow (numbered_assignHandles (hts t List.mem_cons_self) _)
    exact ih hinsert (hfresh.insert t) fun u hu => hts u (List.mem_cons_of_mem _ hu)

end Store

end Schemata
