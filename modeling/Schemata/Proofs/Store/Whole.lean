import Schemata.Proofs.Store.Sound

/-!
# Stores as a step changes them

Roots that are removed are kept aside, and the indices are brought up to date for them. What is left
is sound again: the other roots are in their order and found as before.

A type that is removed from the roots while it is worked on stays in the store, so a step knows more
types than the roots hold. In a whole store entry numbers and handles tell all of them apart.

`Evolves` says what a step may do to a whole store at once: all types stay, no status falls, and types
that are not begun are put below begun roots only inside the types that are worked on.
-/

-- ---------------------------------------------------------------------------
-- Removal of roots
-- ---------------------------------------------------------------------------

namespace Schemata

namespace Store

variable {s : Store} {e : Entry} {keys : List Nat}

theorem foldl_keepAside_eq (s : Store) (es : List Entry) :
    ∃ aside, es.foldl keepAside s = { s with aside } ∧ aside ⊆ s.aside ++ es ∧
      (((s.aside ++ es).map (·.key)).Nodup → aside = s.aside ++ es) := by
  induction es generalizing s with
  | nil => exact ⟨s.aside, rfl, List.subset_append_left _ _, fun _ => (List.append_nil _).symm⟩
  | cons e es ih =>
    obtain ⟨aside, heq, hsub, hall⟩ := ih (s.keepAside e)
    rw [List.foldl_cons, heq]
    unfold keepAside at hsub hall ⊢
    by_cases hkept : s.aside.any (·.key == e.key) = true
    · simp only [if_pos hkept] at hsub hall ⊢
      refine ⟨aside, rfl, List.Subset.trans hsub ?_, fun hnodup => ?_⟩
      · exact List.append_subset.mpr ⟨List.subset_append_left _ _,
          List.subset_append_of_subset_right _ (List.subset_cons_self _ _)⟩
      · -- an entry that is aside already has no other number
        obtain ⟨e', he', hkey⟩ := List.any_eq_true.mp hkept
        rw [List.map_append, List.nodup_append] at hnodup
        exact absurd (beq_iff_eq.mp hkey) (hnodup.2.2 _ (List.mem_map_of_mem he') _ List.mem_cons_self)
    · simp only [if_neg hkept, List.append_assoc, List.singleton_append] at hsub hall ⊢
      exact ⟨aside, rfl, hsub, hall⟩

theorem eq_of_root_id (hs : s.Sound) {e' : Entry} (he : e ∈ s.roots) (he' : e' ∈ s.roots)
    (hid : e.type.id = e'.type.id) : e.key = e'.key := by
  have hkey := hs.byHandle e he
  rw [hid, hs.byHandle e' he'] at hkey
  exact (Option.some.inj hkey).symm

/-- Which roots go: those that share a handle with a given one, which is given then. -/
theorem contains_given_iff (hroots : (s.roots.map (·.key)).Nodup)
    (hids : (s.roots.map (·.type.id)).Nodup) (hkeys : ∀ k ∈ keys, ∃ e ∈ s.roots, e.key = k)
    (he : e ∈ s.roots) :
    ((keys.filterMap s.typeOfKey?).map (·.id)).contains e.type.id = keys.contains e.key := by
  rw [Bool.eq_iff_iff, List.contains_iff_mem, List.contains_iff_mem, List.mem_map]
  constructor
  · rintro ⟨t, ht, hid⟩
    obtain ⟨e', he', hk, rfl⟩ := (filterMap_typeOfKey? hroots hkeys).mp ht
    exact List.inj_on_of_nodup_map hids he' he hid ▸ hk
  · intro hk
    exact ⟨e.type, (filterMap_typeOfKey? hroots hkeys).mpr ⟨e, he, hk, rfl⟩, rfl⟩

/-- Roots that share a handle with a given entry go aside, and the indices are brought up to date. -/
theorem remove_eq_foldl (s : Store) (keys : List Nat) {drop : Entry → Bool}
    (hdrop : ∀ e ∈ s.roots, ((keys.filterMap s.typeOfKey?).map (·.id)).contains e.type.id = drop e) :
    ∃ aside, s.remove keys = ((keys.filterMap s.typeOfKey?).map (·.qname)).foldl reindex
      { s with
        roots := s.roots.filter fun e => !drop e
        aside
        byHandle := (s.roots.filter drop).foldl (fun m e => m.erase e.type.id) s.byHandle } ∧
      aside ⊆ s.aside ++ s.roots ∧ ((s.entries.map (·.key)).Nodup →
        aside = s.aside ++ s.roots.filter drop) := by
  have hdropped : (s.roots.filter fun e =>
      ((keys.filterMap s.typeOfKey?).map (·.id)).contains e.type.id) = s.roots.filter drop :=
    List.filter_congr hdrop
  have hleft : (s.roots.filter fun e =>
      !((keys.filterMap s.typeOfKey?).map (·.id)).contains e.type.id) = s.roots.filter fun e => !drop e :=
    List.filter_congr fun e he => by rw [hdrop e he]
  unfold remove
  dsimp only
  rw [hdropped, hleft]
  obtain ⟨aside, haside, hsub, hall⟩ := foldl_keepAside_eq
    { s with
      roots := s.roots.filter fun e => !drop e
      byHandle := (s.roots.filter drop).foldl (fun m e => m.erase e.type.id) s.byHandle }
    (s.roots.filter drop)
  rw [haside]
  refine ⟨aside, List.foldl_map.symm, List.Subset.trans hsub ?_, fun hnodup => hall ?_⟩
  · exact List.append_subset.mpr ⟨List.subset_append_left _ _,
      List.subset_append_of_subset_right _ (List.filter_subset_self _)⟩
  · have hentries := (List.perm_append_comm.map _).nodup_iff.mp hnodup
    exact hentries.sublist ((List.filter_sublist.append_left _).map _)

/-- Whatever entries are given, roots may go aside, and nothing goes away. -/
theorem entries_remove_perm (hkeys : (s.entries.map (·.key)).Nodup) (keys : List Nat) :
    ∃ roots aside byName byHandle, s.remove keys = { s with roots, aside, byName, byHandle } ∧
      roots ⊆ s.roots ∧ (roots ++ aside).Perm s.entries := by
  obtain ⟨aside, heq, -, hall⟩ := remove_eq_foldl s keys fun _ _ => rfl
  obtain ⟨byName, hbyName, -⟩ := foldl_reindex_eq _ _
  refine ⟨_, aside, byName, _, heq.trans hbyName, List.filter_subset_self _, ?_⟩
  rw [hall hkeys]
  refine (List.perm_append_comm_assoc _ _ _).trans (List.perm_append_comm.trans ?_)
  exact (List.perm_append_comm.trans (List.filter_append_perm _ _)).append_right _

/-- Of a name that no given root has no root goes. -/
theorem filter_remove (hroots : (s.roots.map (·.key)).Nodup)
    (hkeys : ∀ k ∈ keys, ∃ e ∈ s.roots, e.key = k) {q : QName}
    (hq : q ∉ (keys.filterMap s.typeOfKey?).map (·.qname)) :
    (s.roots.filter fun e => !keys.contains e.key).filter (·.type.qname == q) =
      s.roots.filter (·.type.qname == q) := by
  rw [List.filter_filter]
  refine List.filter_congr fun e he => ?_
  by_cases hname : e.type.qname = q
  · have hk : e.key ∉ keys := fun hk =>
      hq (hname ▸ List.mem_map_of_mem ((filterMap_typeOfKey? hroots hkeys).mpr ⟨e, he, hk, rfl⟩))
    simp [hname, hk]
  · simp [hname]

theorem Indexed.remove (hs : s.Indexed) (hroots : (s.roots.map (·.key)).Nodup)
    (hids : (s.roots.map (·.type.id)).Nodup) (hkeys : ∀ k ∈ keys, ∃ e ∈ s.roots, e.key = k) :
    (s.remove keys).Indexed := by
  obtain ⟨aside, heq, -⟩ := remove_eq_foldl s keys fun e he => contains_given_iff hroots hids hkeys he
  rw [heq]
  exact hs.foldl_reindex _ _ rfl fun q hq => congrArg (List.map _) (filter_remove hroots hkeys hq)

/-- The given roots go, as long as entry numbers and handles tell roots apart. -/
theorem exists_remove_eq (hroots : (s.roots.map (·.key)).Nodup) (hids : (s.roots.map (·.type.id)).Nodup)
    (hkeys : ∀ k ∈ keys, ∃ e ∈ s.roots, e.key = k) :
    ∃ aside byName, s.remove keys =
      { s with
        roots := s.roots.filter fun e => !keys.contains e.key
        aside
        byName
        byHandle := (s.roots.filter fun e => keys.contains e.key).foldl
          (fun m e => m.erase e.type.id) s.byHandle } ∧ aside ⊆ s.aside ++ s.roots := by
  obtain ⟨aside, heq, hsub, -⟩ := remove_eq_foldl s keys fun e he => contains_given_iff hroots hids hkeys he
  obtain ⟨byName, hbyName, -⟩ := foldl_reindex_eq _ _
  exact ⟨aside, byName, heq.trans hbyName, hsub⟩

theorem roots_remove_of_nodup (hroots : (s.roots.map (·.key)).Nodup) (hids : (s.roots.map (·.type.id)).Nodup)
    (hkeys : ∀ k ∈ keys, ∃ e ∈ s.roots, e.key = k) :
    (s.remove keys).roots = s.roots.filter fun e => !keys.contains e.key := by
  obtain ⟨aside, byName, heq, -⟩ := exists_remove_eq hroots hids hkeys
  rw [heq]

theorem Sound.remove_eq (hs : s.Sound) (hkeys : ∀ k ∈ keys, ∃ e ∈ s.roots, e.key = k) :
    ∃ aside byName, s.remove keys =
      { s with
        roots := s.roots.filter fun e => !keys.contains e.key
        aside
        byName
        byHandle := (s.roots.filter fun e => keys.contains e.key).foldl
          (fun m e => m.erase e.type.id) s.byHandle } ∧ aside ⊆ s.aside ++ s.roots :=
  exists_remove_eq hs.keys (nodup_root_ids hs.handles) hkeys

theorem roots_remove (hs : s.Sound) (hkeys : ∀ k ∈ keys, ∃ e ∈ s.roots, e.key = k) :
    (s.remove keys).roots = s.roots.filter fun e => !keys.contains e.key :=
  roots_remove_of_nodup hs.keys (nodup_root_ids hs.handles) hkeys

theorem nextHandle_remove (hs : s.Sound) (hkeys : ∀ k ∈ keys, ∃ e ∈ s.roots, e.key = k) :
    (s.remove keys).nextHandle = s.nextHandle := by
  obtain ⟨aside, byName, heq, -⟩ := hs.remove_eq hkeys
  rw [heq]

theorem KeysBelow.remove (hbelow : s.KeysBelow) (hs : s.Sound)
    (hkeys : ∀ k ∈ keys, ∃ e ∈ s.roots, e.key = k) : (s.remove keys).KeysBelow := by
  obtain ⟨aside, byName, heq, hsub⟩ := hs.remove_eq hkeys
  rw [heq]
  intro e he
  refine hbelow e ?_
  obtain he | he := List.mem_append.mp he
  · exact List.mem_append_left _ (List.mem_of_mem_filter he)
  · exact List.perm_append_comm.subset (hsub he)

theorem Sound.remove (hs : s.Sound) (hkeys : ∀ k ∈ keys, ∃ e ∈ s.roots, e.key = k) :
    (s.remove keys).Sound := by
  obtain ⟨aside, byName, heq, -⟩ := hs.remove_eq hkeys
  have hroots := roots_remove hs hkeys
  have hsub : (s.remove keys).roots.Sublist s.roots := by
    rw [hroots]
    exact List.filter_sublist
  have hhandles : (s.remove keys).handles.Sublist s.handles := by
    unfold Store.handles types
    rw [List.flatMap_map, List.flatMap_map]
    exact Lists.flatMap_sublist hsub _
  constructor
  case keys => exact hs.keys.sublist (hsub.map _)
  case handles => exact hs.handles.sublist hhandles
  case below =>
    intro h hh
    rw [nextHandle_remove hs hkeys]
    exact hs.below h (hhandles.subset hh)
  case byName => exact Indexed.remove hs.byName hs.keys (nodup_root_ids hs.handles) hkeys
  case byHandle =>
    intro e he
    rw [hroots, List.mem_filter] at he
    have hleft : e.key ∉ keys := by simpa using he.2
    rw [heq]
    refine (get?_foldl_erase _ fun e' he' hid => ?_).trans (hs.byHandle e he.1)
    obtain ⟨he', hk⟩ := List.mem_filter.mp he'
    exact hleft (eq_of_root_id hs he' he.1 hid ▸ List.contains_iff_mem.mp hk)

end Store

end Schemata

-- ---------------------------------------------------------------------------
-- Whole stores
-- ---------------------------------------------------------------------------

namespace Schemata

open SchemaType

variable {s s' : Store} {t u : SchemaType} {h a b : Handle} {busy top : Status} {next : Handle}
  {g : SchemaType → SchemaType} {extra : List SchemaType}

namespace Store

/-- The types that entries stand for, roots first. -/
def stock (s : Store) : List SchemaType :=
  s.entries.map (·.type)

/-- The type is that of an entry or nested in it. -/
def Knows (s : Store) (u : SchemaType) : Prop :=
  ∃ t ∈ s.stock, Within u t

/-- Entry numbers and handles tell all types apart, and the next ones are new. -/
structure Whole (s : Store) : Prop where
  keys : (s.entries.map (·.key)).Nodup
  keysBelow : s.KeysBelow
  handles : Distinct s.stock s.nextHandle

theorem Sound.whole (hs : s.Sound) (hfresh : s.Fresh) : s.Whole := by
  have hentries : s.entries = s.roots := by rw [entries, hfresh.aside, List.append_nil]
  refine ⟨?_, hfresh.keysBelow, ?_⟩
  · rw [hentries]
    exact hs.keys
  · rw [stock, hentries]
    exact ⟨hs.handles, hs.below⟩

theorem Holds.knows (hu : s.Holds u) : s.Knows u := by
  obtain ⟨t, ht, hut⟩ := hu
  obtain ⟨e, he, rfl⟩ := List.mem_map.mp ht
  exact ⟨e.type, List.mem_map_of_mem (List.mem_append_left _ he), hut⟩

theorem Knows.within (hu : s.Knows u) (htu : Within t u) : s.Knows t := by
  obtain ⟨r, hr, hur⟩ := hu
  exact ⟨r, hr, htu.trans hur⟩

theorem Knows.nodup_handles (hs : s.Whole) (hu : s.Knows u) : u.handles.Nodup := by
  obtain ⟨t, ht, hut⟩ := hu
  exact hut.nodup_handles ((List.nodup_flatMap.mp hs.handles.nodup).1 t ht)

theorem get?_eq_find? (s : Store) (h : Handle) : s.get? h = (walkAll s.stock).find? (·.id == h) := by
  rw [get?, walkAll_eq_flatMap, List.find?_flatMap, stock, List.findSome?_map]
  rfl

theorem get?_eq_some_iff (hs : s.Whole) : s.get? h = some t ↔ s.Knows t ∧ t.id = h := by
  have hnodup : ((walkAll s.stock).map (·.id)).Nodup := by
    rw [walkAll_eq_flatMap, List.map_flatMap]
    exact hs.handles.nodup
  rw [get?_eq_find?, Lists.find?_key_eq_some_iff hnodup, mem_walkAll_iff]
  rfl

theorem knows_of_get? (ht : s.get? h = some t) : s.Knows t ∧ t.id = h := by
  rw [get?_eq_find?] at ht
  have hid := List.find?_some ht
  exact ⟨mem_walkAll_iff.mp (List.mem_of_find?_eq_some ht), beq_iff_eq.mp hid⟩

theorem Knows.eq_of_id (hs : s.Whole) (ht : s.Knows t) (hu : s.Knows u) (hid : t.id = u.id) : t = u := by
  have hget := (get?_eq_some_iff hs).mpr ⟨ht, hid⟩
  rw [(get?_eq_some_iff hs).mpr ⟨hu, rfl⟩] at hget
  exact (Option.some.inj hget).symm

theorem knows_of_lookup? {q : QName} {p : SchemaType → Bool} (ht : s.lookup? q p = some t) : s.Knows t := by
  obtain ⟨e, he, rfl⟩ := Option.map_eq_some_iff.mp ht
  obtain ⟨key, -, hkey⟩ := List.mem_filterMap.mp (List.mem_of_find?_eq_some he)
  obtain ⟨t, htype, rfl⟩ := Option.map_eq_some_iff.mp hkey
  obtain ⟨e', he', rfl⟩ := Option.map_eq_some_iff.mp htype
  exact ⟨e'.type, List.mem_map_of_mem (List.mem_of_find?_eq_some he'), .self⟩

/-- The handle is that of the type with the other handle, or of one nested in it. -/
def Inside (s : Store) (a b : Handle) : Prop :=
  ∃ t, s.Knows t ∧ t.id = b ∧ a ∈ t.handles

theorem Knows.inside (hu : s.Knows u) (htu : Within t u) : s.Inside t.id u.id :=
  ⟨u, hu, rfl, SchemaType.mem_handles_iff.mpr ⟨t, htu, rfl⟩⟩

theorem Inside.trans {c : Handle} (hs : s.Whole) (hab : s.Inside a b) (hbc : s.Inside b c) :
    s.Inside a c := by
  obtain ⟨t, ht, rfl, ha⟩ := hab
  obtain ⟨u, hu, rfl, hb⟩ := hbc
  obtain ⟨v, hv, hid⟩ := SchemaType.mem_handles_iff.mp hb
  obtain rfl := (hu.within hv).eq_of_id hs ht hid
  exact ⟨u, hu, rfl, hv.handles_subset ha⟩

/-- A type that is not begun, below a root that is. -/
def Stray (s : Store) (busy : Status) (a : Handle) : Prop :=
  ∃ t ∈ s.types, ¬ t.status < busy ∧ a ∈ t.pending busy

theorem Stray.mem_pending (hs : s.Whole) (ha : s.Stray busy a) (ht : s.Knows t) (hinside : s.Inside a t.id) :
    a ∈ t.pending busy := by
  obtain ⟨r, hr, -, ha⟩ := ha
  obtain ⟨u, hu, hlt, rfl⟩ := mem_pending_iff.mp ha
  obtain ⟨v, hv, hid, hmem⟩ := hinside
  obtain rfl := hv.eq_of_id hs ht hid
  obtain ⟨w, hw, hid⟩ := SchemaType.mem_handles_iff.mp hmem
  obtain rfl := (hv.within hw).eq_of_id hs ((holds_of_mem_types hr).knows.within hu) hid
  exact mem_pending_iff.mpr ⟨w, hw, hlt, rfl⟩

end Store

-- ---------------------------------------------------------------------------
-- What a step may do
-- ---------------------------------------------------------------------------

/-- What becomes of a type: it may take in more, and it may come further, up to `top`. -/
structure SchemaType.Becomes (top : Status) (u u' : SchemaType) : Prop where
  id : u'.id = u.id
  handles : u.handles ⊆ u'.handles
  status : u.status ≤ u'.status
  top : u.status ≤ top → u'.status ≤ top

theorem SchemaType.Becomes.refl (top : Status) (u : SchemaType) : u.Becomes top u :=
  ⟨rfl, List.Subset.refl _, Nat.le_refl _, fun htop => htop⟩

namespace Store

/-- What a step makes of a store while it works on the types with the given handles. -/
structure Evolves (busy top : Status) (worked : List Handle) (s s' : Store) : Prop where
  whole : s'.Whole
  stays : ∀ u, s.Knows u → ∃ u', s'.Knows u' ∧ u.Becomes top u'
  strays : ∀ a, s'.Stray busy a → s.Stray busy a ∨ ∃ h ∈ worked, s'.Inside a h

variable {worked : List Handle}

theorem Evolves.mono {worked' : List Handle} (hevolves : Evolves busy top worked s s')
    (hsub : worked ⊆ worked') : Evolves busy top worked' s s' where
  whole := hevolves.whole
  stays := hevolves.stays
  strays a ha := by
    obtain ha | ⟨h, hh, hinside⟩ := hevolves.strays a ha
    · exact .inl ha
    · exact .inr ⟨h, hsub hh, hinside⟩

theorem Inside.evolves (hevolves : Evolves busy top worked s s') (hab : s.Inside a b) : s'.Inside a b := by
  obtain ⟨t, ht, rfl, ha⟩ := hab
  obtain ⟨t', ht', hbecomes⟩ := hevolves.stays t ht
  exact ⟨t', ht', hbecomes.id, hbecomes.handles ha⟩

/-- Entries that change places, and roots that go aside, change nothing else. -/
theorem Whole.evolves_of_perm (hs : s.Whole) (hentries : s'.entries.Perm s.entries)
    (hroots : s'.roots ⊆ s.roots) (hkey : s'.nextKey = s.nextKey) (hhandle : s'.nextHandle = s.nextHandle) :
    Evolves busy top [] s s' where
  whole := by
    have hhandles : (s'.stock.flatMap SchemaType.handles).Perm (s.stock.flatMap SchemaType.handles) :=
      (hentries.map _).flatMap_right _
    constructor
    case keys => exact (hentries.map _).nodup_iff.mpr hs.keys
    case keysBelow =>
      intro e he
      rw [hkey]
      exact hs.keysBelow e (hentries.subset he)
    case handles =>
      rw [hhandle]
      exact ⟨hhandles.nodup_iff.mpr hs.handles.nodup, fun h hh => hs.handles.below h (hhandles.subset hh)⟩
  stays := by
    rintro u ⟨t, ht, hu⟩
    exact ⟨u, ⟨t, (hentries.map _).mem_iff.mpr ht, hu⟩, .refl top u⟩
  strays := by
    rintro a ⟨t, ht, hstray⟩
    exact .inl ⟨t, List.map_subset _ hroots ht, hstray⟩

theorem Whole.evolves_quiet (hs : s.Whole) (memory : Memory) (journal : List Event) :
    Evolves busy top [] s { s with memory, journal } :=
  hs.evolves_of_perm (.refl _) (List.Subset.refl _) rfl rfl

theorem Whole.evolves_remove (hs : s.Whole) (keys : List Nat) : Evolves busy top [] s (s.remove keys) := by
  obtain ⟨roots, aside, byName, byHandle, heq, hroots, hperm⟩ := entries_remove_perm hs.keys keys
  rw [heq]
  exact hs.evolves_of_perm hperm hroots rfl rfl

theorem stock_update (s : Store) (h : Handle) (g : SchemaType → SchemaType) :
    (s.update h g).stock = s.stock.map (updateAt h g) := by
  simp [stock, entries, Store.update, Function.comp_def]

theorem Whole.update (hs : s.Whole) (hg : Widens g extra) (ht : s.Knows t)
    (hextra : Numbered (extra.flatMap SchemaType.handles) s.nextHandle next) :
    ({ s with nextHandle := next }.update t.id g).Whole where
  keys := by
    have hentries : ({ s with nextHandle := next }.update t.id g).entries =
        s.entries.map fun e => { e with type := e.type.updateAt t.id g } := by
      rw [entries, entries, List.map_append]
      rfl
    rw [hentries, List.map_map]
    exact hs.keys
  keysBelow := KeysBelow.update (s := { s with nextHandle := next }) hs.keysBelow t.id g
  handles := by
    refine hs.handles.extend hextra ?_
    rw [stock_update]
    have hmem := mem_flatMap_handles_iff.mpr ⟨t, ht, rfl⟩
    exact flatMap_handles_updateAt_perm hs.handles.nodup hmem fun u _ => hg.handles_updateAt_perm

theorem Whole.knows_update (hs : s.Whole) (hg : Widens g extra) (hu : s.Knows u) :
    (s.update h g).Knows (u.updateAt h g) := by
  obtain ⟨r, hr, hur⟩ := hu
  refine ⟨r.updateAt h g, ?_, hg.within_updateAt ?_ hur⟩
  · rw [stock_update]
    exact List.mem_map_of_mem hr
  · exact Knows.nodup_handles hs ⟨r, hr, .self⟩

theorem Whole.becomes_updateAt (hs : s.Whole) (hg : Widens g extra) (ht : s.Knows t)
    (hstatus : t.status ≤ (g t).status) (htop : t.status ≤ top → (g t).status ≤ top) (hu : s.Knows u) :
    u.Becomes top (u.updateAt t.id g) := by
  have hchanged : (u.updateAt t.id g).status = u.status ∨ u = t := by
    by_cases hid : u.id = t.id
    · exact .inr (hu.eq_of_id hs ht hid)
    · exact .inl (by rw [updateAt_of_ne hid, withInner])
  constructor
  case id => exact hg.updateAt_id u
  case handles => exact hg.handles_subset_updateAt (hu.nodup_handles hs)
  case status =>
    obtain hsame | rfl := hchanged
    · rw [hsame]
      exact Nat.le_refl _
    · rwa [updateAt_of_eq rfl]
  case top =>
    obtain hsame | rfl := hchanged
    · rw [hsame]
      exact fun hle => hle
    · rwa [updateAt_of_eq rfl]

/-- A change at one type puts nothing that is not begun below begun roots but in this type. -/
theorem Whole.stray_of_update (hs : s.Whole) (hg : Widens g extra)
    (ha : (s.update h g).Stray busy a) : s.Stray busy a ∨ (s.update h g).Inside a h := by
  obtain ⟨r', hr', hbegun, ha⟩ := ha
  rw [types_update] at hr'
  obtain ⟨r, hr, rfl⟩ := List.mem_map.mp hr'
  obtain ⟨v, hv, hlt, rfl⟩ := mem_pending_iff.mp ha
  have hknows : ∀ u, s.Knows u → (s.update h g).Knows (u.updateAt h g) := fun u => hs.knows_update hg
  have hroot : s.Knows r := (holds_of_mem_types hr).knows
  by_cases hid : r.id = h
  · -- the whole root is worked on
    have hinside := (hknows r hroot).inside hv
    rw [hg.updateAt_id, hid] at hinside
    exact .inr hinside
  · rw [updateAt_of_ne hid, withInner] at hbegun
    obtain ⟨u, hu, rfl⟩ | ⟨u, hu, rfl, c, hc, hvc⟩ := within_of_updateAt hv
    · by_cases hid' : u.id = h
      · have hinside := (hknows u (hroot.within hu)).inside .self
        rw [hg.updateAt_id, hid'] at hinside ⊢
        exact .inr hinside
      · rw [updateAt_of_ne hid', withInner] at hlt
        rw [hg.updateAt_id]
        exact .inl ⟨r, hr, hbegun, mem_pending_iff.mpr ⟨u, hu, hlt, rfl⟩⟩
    · have hchanged := hknows u (hroot.within hu)
      rw [updateAt_of_eq rfl] at hchanged
      have hinside := hchanged.inside (.inner hc hvc)
      rw [hg.id] at hinside
      exact .inr hinside

/-- A change of a type that may add types with new handles to it. -/
theorem Whole.evolves_update (hs : s.Whole) (hg : Widens g extra) (ht : s.Knows t)
    (hextra : Numbered (extra.flatMap SchemaType.handles) s.nextHandle next)
    (hstatus : t.status ≤ (g t).status) (htop : t.status ≤ top → (g t).status ≤ top) :
    Evolves busy top [t.id] s ({ s with nextHandle := next }.update t.id g) where
  whole := hs.update hg ht hextra
  stays u hu := ⟨u.updateAt t.id g, hs.knows_update hg hu, hs.becomes_updateAt hg ht hstatus htop hu⟩
  strays a ha := by
    obtain ha | hinside := hs.stray_of_update hg ha
    · exact .inl ha
    · exact .inr ⟨t.id, List.mem_singleton_self _, hinside⟩

/-- A new root, with nothing that is not begun in it unless it is itself not begun. -/
theorem Whole.evolves_insert (hs : s.Whole) (hnew : ∀ h ∈ t.handles, h = 0)
    (ht : t.status < busy ∨ ∀ u, Within u t → ¬ u.status < busy) :
    Evolves busy top [] s (s.insert t) := by
  have hperm : (s.insert t).entries.Perm (s.entries ++ [⟨s.nextKey, (t.assignHandles s.nextHandle).1⟩]) := by
    rw [insert_eq hs.keysBelow, entries, entries, List.append_assoc, List.append_assoc]
    exact List.perm_append_comm.append_left _
  have hsub : s.stock ⊆ (s.insert t).stock :=
    List.map_subset _ (List.Subset.trans (List.subset_append_left _ _) hperm.symm.subset)
  constructor
  case whole =>
    have hnumbered : Numbered ([(t.assignHandles s.nextHandle).1].flatMap SchemaType.handles) s.nextHandle
        (t.assignHandles s.nextHandle).2 := by
      rw [List.flatMap_singleton]
      exact numbered_assignHandles hnew s.nextHandle
    constructor
    case keys =>
      rw [(hperm.map _).nodup_iff, List.map_append, List.nodup_append]
      refine ⟨hs.keys, List.nodup_singleton _, fun k hk k' hk' => ?_⟩
      obtain ⟨e, he, rfl⟩ := List.mem_map.mp hk
      rw [List.mem_singleton.mp hk']
      exact Nat.ne_of_lt (hs.keysBelow e he)
    case keysBelow =>
      intro e he
      rw [insert_eq hs.keysBelow]
      obtain he | he := List.mem_append.mp (hperm.subset he)
      · exact Nat.lt_succ_of_lt (hs.keysBelow e he)
      · rw [List.mem_singleton.mp he]
        exact Nat.lt_succ_self _
    case handles =>
      have hnext : (s.insert t).nextHandle = (t.assignHandles s.nextHandle).2 := by
        rw [insert_eq hs.keysBelow]
      rw [hnext]
      refine hs.handles.extend hnumbered (((hperm.map _).flatMap_right _).trans ?_)
      rw [List.map_append, List.flatMap_append]
      rfl
  case stays =>
    rintro u ⟨r, hr, hu⟩
    exact ⟨u, ⟨r, hsub hr, hu⟩, .refl top u⟩
  case strays =>
    rintro a ⟨r, hr, hbegun, ha⟩
    rw [types, insert_eq hs.keysBelow, List.map_append, List.mem_append] at hr
    obtain hr | hr := hr
    · exact .inl ⟨r, hr, hbegun, ha⟩
    · obtain rfl := List.mem_singleton.mp hr
      obtain ⟨v, hv, hlt, -⟩ := mem_pending_iff.mp ha
      obtain ⟨u, hu, hstatus, -⟩ := within_renumber t _ hv
      rw [status_assignHandles] at hbegun
      exact absurd (hstatus ▸ hlt) ((ht.resolve_left hbegun) u hu)

end Store

end Schemata
