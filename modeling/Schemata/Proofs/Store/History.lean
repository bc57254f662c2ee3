import Schemata.Proofs.Store.Whole

/-!
# Histories of a store

Types enter a store, become roots, are removed, put in the place of other roots and renamed. The order
of the roots, the index by name and the index by handle are kept side by side, and each change brings
them up to date in its own way. Whatever the history, the indices say what the order says: each change
keeps the store consistent, and so do all of them, one after another.
-/

namespace Schemata

open SchemaType

variable {s : Store} {t : SchemaType} {e r : Entry} {h old next : Handle} {key : Nat} {keys : List Nat}
  {q : QName}

namespace SchemaType

theorem id_assignHandles (t : SchemaType) (next : Handle) :
    (t.assignHandles next).1.id = if t.id = 0 then next else t.id := by
  cases t
  simp only [assignHandles, renumber, beq_iff_eq]
  split
  · rfl
  · rfl

theorem qname_assignHandles (t : SchemaType) (next : Handle) :
    (t.assignHandles next).1.qname = t.qname := by
  cases t
  rfl

mutual

theorem le_renumber {due : Handle → Bool} : (t : SchemaType) → (next : Handle) →
    next ≤ (t.renumber due next).2
  | ⟨id, _, _, _, _, _, _, _, _, _, _, _, _, _, _, _, inner, _, _, _⟩, next => by
    simp only [renumber]
    split
    · exact Int.le_trans (Int.le_add_one (Int.le_refl next)) (le_renumberAll inner _)
    · exact le_renumberAll inner next

theorem le_renumberAll {due : Handle → Bool} : (ts : List SchemaType) → (next : Handle) →
    next ≤ (renumberAll due ts next).2
  | [], next => Int.le_refl next
  | t :: ts, next => Int.le_trans (le_renumber t next) (le_renumberAll ts _)

end

/-- The type in the place of a root: it takes over the root's handle if it has none. -/
def succeeding (old : Handle) (t : SchemaType) : SchemaType :=
  if t.id = 0 then { t with id := old } else t

theorem id_succeeding (old : Handle) (t : SchemaType) :
    (t.succeeding old).id = if t.id = 0 then old else t.id := by
  unfold succeeding
  split
  · rfl
  · rfl

theorem qname_succeeding (old : Handle) (t : SchemaType) : (t.succeeding old).qname = t.qname := by
  unfold succeeding
  split
  · rfl
  · rfl

end SchemaType

namespace Store

-- ---------------------------------------------------------------------------
-- Entries
-- ---------------------------------------------------------------------------

theorem typeOfKey?_of_mem_entries (hkeys : (s.entries.map (·.key)).Nodup) (he : e ∈ s.entries) :
    s.typeOfKey? e.key = some e.type := by
  rw [typeOfKey?, (Lists.find?_key_eq_some_iff hkeys).mpr ⟨he, rfl⟩, Option.map_some]

/-- A store in which an entry that is aside has another type. -/
def amend (s : Store) (e : Entry) (next : Handle) : Store :=
  { s with
    aside := s.aside.map fun e' => if e'.key = e.key then e else e'
    nextHandle := next }

theorem keys_amend (s : Store) (e : Entry) (next : Handle) :
    (s.amend e next).entries.map (·.key) = s.entries.map (·.key) := by
  unfold entries amend
  rw [List.map_append, List.map_append, List.map_map]
  refine congrArg (_ ++ ·) (List.map_congr_left fun e' _ => ?_)
  rw [Function.comp_apply]
  split
  case isTrue hkey => exact hkey.symm
  case isFalse => rfl

theorem mem_amend (he : e ∈ s.aside) (t : SchemaType) (next : Handle) :
    ⟨e.key, t⟩ ∈ (s.amend ⟨e.key, t⟩ next).aside :=
  List.mem_map.mpr ⟨e, he, if_pos rfl⟩

theorem filter_amend (s : Store) (e : Entry) (next : Handle) :
    (s.amend e next).aside.filter (·.key != e.key) = s.aside.filter (·.key != e.key) := by
  unfold amend
  dsimp only
  induction s.aside with
  | nil => rfl
  | cons e' es ih =>
    by_cases hkey : e'.key = e.key
    · simpa [hkey] using ih
    · simpa [hkey] using ih

theorem amend_amend (s : Store) (t t' : SchemaType) (next next' : Handle) :
    (s.amend ⟨key, t⟩ next).amend ⟨key, t'⟩ next' = s.amend ⟨key, t'⟩ next' := by
  unfold amend
  dsimp only
  rw [List.map_map]
  refine congrArg (fun aside => { s with aside, nextHandle := next' }) (List.map_congr_left fun e _ => ?_)
  rw [Function.comp_apply]
  by_cases hkey : e.key = key
  · rw [if_pos hkey, if_pos hkey, if_pos rfl]
  · rw [if_neg hkey, if_neg hkey]

theorem updateEntry_of_aside (hkeys : (s.entries.map (·.key)).Nodup) (he : e ∈ s.aside)
    (g : SchemaType → SchemaType) :
    s.updateEntry e.key g = s.amend ⟨e.key, g e.type⟩ s.nextHandle := by
  rw [entries, List.map_append, List.nodup_append] at hkeys
  have hroots : s.roots.map (fun e' => if e'.key = e.key then { e' with type := g e'.type } else e') =
      s.roots := by
    refine (List.map_congr_left fun r hr => if_neg ?_).trans (List.map_id _)
    exact hkeys.2.2 _ (List.mem_map_of_mem hr) _ (List.mem_map_of_mem he)
  have haside : s.aside.map (fun e' => if e'.key = e.key then { e' with type := g e'.type } else e') =
      s.aside.map fun e' => if e'.key = e.key then ⟨e.key, g e.type⟩ else e' := by
    refine List.map_congr_left fun e' he' => ?_
    by_cases hkey : e'.key = e.key
    · rw [List.inj_on_of_nodup_map hkeys.2.1 he' he hkey]
    · rw [if_neg hkey, if_neg hkey]
  unfold updateEntry amend
  dsimp only
  rw [hroots, haside]

theorem assignHandles_of_aside (hkeys : (s.entries.map (·.key)).Nodup) (he : e ∈ s.aside) :
    s.assignHandles e.key = s.amend ⟨e.key, (e.type.assignHandles s.nextHandle).1⟩
      (e.type.assignHandles s.nextHandle).2 := by
  unfold assignHandles
  rw [typeOfKey?_of_mem_entries hkeys (List.mem_append_right s.roots he)]
  dsimp only
  rw [updateEntry_of_aside hkeys he]
  rfl

-- ---------------------------------------------------------------------------
-- What the changes do
-- ---------------------------------------------------------------------------

/-- An entry that is aside becomes the last root. -/
theorem add_eq (hkeys : (s.entries.map (·.key)).Nodup) (he : e ∈ s.aside) :
    s.add e.key = { s with
      roots := s.roots ++ [⟨e.key, (e.type.assignHandles s.nextHandle).1⟩]
      aside := s.aside.filter (·.key != e.key)
      byName := s.byName.insert e.type.qname ((s.byName.get? e.type.qname).getD [] ++ [e.key])
      byHandle := s.byHandle.insert (e.type.assignHandles s.nextHandle).1.id e.key
      nextHandle := (e.type.assignHandles s.nextHandle).2 } := by
  unfold add
  rw [assignHandles_of_aside hkeys he, ← qname_assignHandles e.type s.nextHandle]
  generalize e.type.assignHandles s.nextHandle = assigned
  obtain ⟨t, next⟩ := assigned
  have hmem := List.mem_append_right s.roots (mem_amend he t next)
  have hfound := typeOfKey?_of_mem_entries (keys_amend s ⟨e.key, t⟩ next ▸ hkeys) hmem
  have hfilter := filter_amend s ⟨e.key, t⟩ next
  dsimp only at hfound hfilter ⊢
  rw [hfound, hfilter]
  rfl

/-- The roots with an entry in the place of another one. -/
def swap (roots : List Entry) (r e : Entry) : List Entry :=
  roots.map fun r' => if r'.key = r.key then e else r'

theorem replaceFirst_eq_swap {roots : List Entry} (hkeys : (roots.map (·.key)).Nodup) (r e : Entry) :
    replaceFirst r.key e roots = swap roots r e := by
  unfold swap
  induction roots with
  | nil => rfl
  | cons r' roots ih =>
    obtain ⟨hr', hkeys⟩ := List.nodup_cons.mp hkeys
    rw [replaceFirst, List.map_cons]
    by_cases hkey : r'.key = r.key
    · have hrest : roots.map (fun r' => if r'.key = r.key then e else r') = roots := by
        refine (List.map_congr_left fun x hx => if_neg fun heq => hr' ?_).trans (List.map_id _)
        exact List.mem_map.mpr ⟨x, hx, heq.trans hkey.symm⟩
      rw [if_pos hkey, if_pos hkey, hrest]
    · rw [if_neg hkey, if_neg hkey, ih hkeys]

theorem mem_swap_iff (hr : r ∈ s.roots) {x : Entry} :
    x ∈ swap s.roots r e ↔ x = e ∨ x ∈ s.roots ∧ x.key ≠ r.key := by
  rw [swap, List.mem_map]
  constructor
  · rintro ⟨r', hr', rfl⟩
    split
    case isTrue => exact .inl rfl
    case isFalse hne => exact .inr ⟨hr', hne⟩
  · rintro (rfl | ⟨hx, hne⟩)
    · exact ⟨r, hr, if_pos rfl⟩
    · exact ⟨x, hx, if_neg hne⟩

/-- A swap brings nothing new for other names than those of the two entries. -/
theorem filter_swap (hkeys : (s.roots.map (·.key)).Nodup) (hr : r ∈ s.roots) (hq : q ≠ r.type.qname)
    (hq' : q ≠ e.type.qname) :
    (swap s.roots r e).filter (·.type.qname == q) = s.roots.filter (·.type.qname == q) := by
  have hother : ∀ r' ∈ s.roots, (r'.type.qname == q) = true → r'.key ≠ r.key := by
    intro r' hr' hname hkey
    obtain rfl := List.inj_on_of_nodup_map hkeys hr' hr hkey
    exact hq (beq_iff_eq.mp hname).symm
  have hfilter : s.roots.filter ((·.type.qname == q) ∘ fun r' => if r'.key = r.key then e else r') =
      s.roots.filter (·.type.qname == q) := by
    refine List.filter_congr fun r' hr' => ?_
    rw [Function.comp_apply]
    by_cases hkey : r'.key = r.key
    · obtain rfl := List.inj_on_of_nodup_map hkeys hr' hr hkey
      rw [if_pos rfl, beq_false_of_ne hq.symm, beq_false_of_ne hq'.symm]
    · rw [if_neg hkey]
  rw [swap, List.filter_map, hfilter]
  refine (List.map_congr_left fun r' hr' => if_neg ?_).trans (List.map_id _)
  obtain ⟨hr', hname⟩ := List.mem_filter.mp hr'
  exact hother r' hr' hname

/-- An entry that is aside takes the place of a root, and the root goes aside. -/
theorem replace_eq (hkeys : (s.entries.map (·.key)).Nodup) (he : e ∈ s.aside) (hr : r ∈ s.roots)
    (hold : s.byHandle.get? old = some r.key) :
    s.replace old e.key = .ok ([r.type.qname, e.type.qname].foldl reindex { s with
      roots := swap s.roots r ⟨e.key, ((e.type.succeeding old).assignHandles s.nextHandle).1⟩
      aside := s.aside.filter (·.key != e.key) ++ [r]
      byHandle := (s.byHandle.erase old).insert
        ((e.type.succeeding old).assignHandles s.nextHandle).1.id e.key
      nextHandle := ((e.type.succeeding old).assignHandles s.nextHandle).2 }) := by
  have hqname : ((e.type.succeeding old).assignHandles s.nextHandle).1.qname = e.type.qname := by
    rw [qname_assignHandles, qname_succeeding]
  have hparts := hkeys
  rw [entries, List.map_append, List.nodup_append] at hparts
  have hassigned : (s.updateEntry e.key fun t => if t.id = 0 then { t with id := old } else t).assignHandles
      e.key = s.amend ⟨e.key, ((e.type.succeeding old).assignHandles s.nextHandle).1⟩
        ((e.type.succeeding old).assignHandles s.nextHandle).2 := by
    have hmem := mem_amend he (e.type.succeeding old) s.nextHandle
    have hassign := assignHandles_of_aside (keys_amend s _ s.nextHandle ▸ hkeys) hmem
    rw [updateEntry_of_aside hkeys he]
    exact hassign.trans (amend_amend s _ _ _ _)
  unfold replace
  rw [hold]
  dsimp only
  rw [hassigned, ← hqname]
  generalize (e.type.succeeding old).assignHandles s.nextHandle = assigned
  obtain ⟨t, next⟩ := assigned
  have hkeys' : ((s.amend ⟨e.key, t⟩ next).entries.map (·.key)).Nodup := keys_amend s _ next ▸ hkeys
  have hfound := typeOfKey?_of_mem_entries hkeys' (List.mem_append_right s.roots (mem_amend he t next))
  have hfoundOld := typeOfKey?_of_mem_entries (s := s.amend ⟨e.key, t⟩ next) hkeys'
    (List.mem_append_left _ hr)
  have hfilter := filter_amend s ⟨e.key, t⟩ next
  have hroots : replaceFirst r.key ⟨e.key, t⟩ (s.amend ⟨e.key, t⟩ next).roots =
      swap s.roots r ⟨e.key, t⟩ :=
    replaceFirst_eq_swap hparts.1 r _
  have hgone : ¬ ((s.aside.filter (·.key != e.key)).any (·.key == r.key)) = true := by
    intro hany
    obtain ⟨e', he', hkey⟩ := List.any_eq_true.mp hany
    refine hparts.2.2 _ (List.mem_map_of_mem hr) _ (List.mem_map_of_mem (List.mem_of_mem_filter he')) ?_
    exact (beq_iff_eq.mp hkey).symm
  dsimp only at hfound hfilter ⊢
  rw [hfound, hfoundOld]
  dsimp only
  rw [hfilter, hroots, keepAside, if_neg hgone]
  rfl

-- ---------------------------------------------------------------------------
-- Consistency
-- ---------------------------------------------------------------------------

/-- The index by handle says what the roots say. -/
def IndexedByHandle (s : Store) : Prop :=
  ∀ h k, s.byHandle.get? h = some k ↔ ∃ e ∈ s.roots, e.type.id = h ∧ e.key = k

/-- Entry numbers tell all types apart, and the indices say what the roots say. -/
structure Consistent (s : Store) : Prop where
  keys : (s.entries.map (·.key)).Nodup
  below : s.KeysBelow
  positive : 0 < s.nextHandle
  nonzero : ∀ e ∈ s.roots, e.type.id ≠ 0
  byName : s.Indexed
  byHandle : s.IndexedByHandle

theorem KeysBelow.of_keys {s' : Store} (hs : s.KeysBelow)
    (hkeys : s'.entries.map (·.key) ⊆ s.entries.map (·.key)) (hnext : s'.nextKey = s.nextKey) :
    s'.KeysBelow := by
  intro e he
  obtain ⟨e₀, he₀, hkey⟩ := List.mem_map.mp (hkeys (List.mem_map_of_mem he))
  rw [← hkey, hnext]
  exact hs e₀ he₀

/-- An entry that leaves the others aside. -/
theorem keys_filter_perm (hkeys : (s.entries.map (·.key)).Nodup) (he : e ∈ s.aside) :
    (e.key :: (s.aside.filter (·.key != e.key)).map (·.key)).Perm (s.aside.map (·.key)) := by
  rw [entries, List.map_append, List.nodup_append] at hkeys
  have herase : (s.aside.filter (·.key != e.key)).map (·.key) = (s.aside.map (·.key)).erase e.key := by
    rw [hkeys.2.1.erase_eq_filter, List.filter_map]
    rfl
  rw [herase]
  exact (List.perm_cons_erase (List.mem_map_of_mem he)).symm

/-- An entry that is aside and a root change places. -/
theorem keys_swap_perm (hkeys : (s.entries.map (·.key)).Nodup) (he : e ∈ s.aside) (hr : r ∈ s.roots)
    (t : SchemaType) :
    ((swap s.roots r ⟨e.key, t⟩ ++ (s.aside.filter (·.key != e.key) ++ [r])).map (·.key)).Perm
      (s.entries.map (·.key)) := by
  have hroots : (s.roots.map (·.key)).Nodup := hkeys.sublist ((List.sublist_append_left _ _).map _)
  have hleaves := List.perm_cons_erase (List.mem_map_of_mem (f := Entry.key) hr)
  have hrest : ((s.roots.map (·.key)).erase r.key).map (fun k => if k = r.key then e.key else k) =
      (s.roots.map (·.key)).erase r.key := by
    refine (List.map_congr_left fun k hk => if_neg fun heq => ?_).trans (List.map_id _)
    exact hroots.not_mem_erase (heq ▸ hk)
  have hcomes : ((swap s.roots r ⟨e.key, t⟩).map (·.key)).Perm
      (e.key :: (s.roots.map (·.key)).erase r.key) := by
    have hmap := hleaves.map fun k => if k = r.key then e.key else k
    rw [List.map_cons, if_pos rfl, hrest, List.map_map] at hmap
    refine (List.Perm.of_eq ?_).trans hmap
    rw [swap, List.map_map]
    refine List.map_congr_left fun r' _ => ?_
    simp only [Function.comp_apply]
    split
    · rfl
    · rfl
  rw [List.map_append, List.map_append, entries, List.map_append]
  generalize (s.roots.map (·.key)).erase r.key = others at hleaves hcomes
  have haside := keys_filter_perm hkeys he
  generalize (s.aside.filter (·.key != e.key)).map (·.key) = left at haside
  calc (swap s.roots r ⟨e.key, t⟩).map (·.key) ++ (left ++ [r.key])
    _ |>.Perm ((e.key :: others) ++ (r.key :: left)) := hcomes.append List.perm_append_comm
    _ |>.Perm ((r.key :: others) ++ (e.key :: left)) := by
      rw [List.perm_iff_count]
      intro k
      simp only [List.count_append, List.count_cons]
      omega
    _ |>.Perm (s.roots.map (·.key) ++ s.aside.map (·.key)) := hleaves.symm.append haside

theorem IndexedByHandle.get?_eq_none (hs : s.IndexedByHandle) (hh : ∀ e ∈ s.roots, e.type.id ≠ h) :
    s.byHandle.get? h = none := by
  refine Option.eq_none_iff_forall_ne_some.mpr fun k hk => ?_
  obtain ⟨e, he, hid, -⟩ := (hs h k).mp hk
  exact hh e he hid

/-- A root whose handle no other root has takes the place of another one. -/
theorem IndexedByHandle.swap {s' : Store} (hs : s.IndexedByHandle) (hkeys : (s.roots.map (·.key)).Nodup)
    (hids : (s.roots.map (·.type.id)).Nodup) (hr : r ∈ s.roots)
    (hfree : ∀ x ∈ s.roots, x.key ≠ r.key → x.type.id ≠ e.type.id)
    (hroots : s'.roots = Store.swap s.roots r e)
    (hbyHandle : s'.byHandle = (s.byHandle.erase r.type.id).insert e.type.id e.key) :
    s'.IndexedByHandle := by
  intro h k
  rw [hbyHandle, hroots, Index.get?_insert]
  simp only [mem_swap_iff hr, or_and_right, exists_or, exists_eq_left, and_assoc]
  by_cases hh : h = e.type.id
  · have hnone : ¬ ∃ x ∈ s.roots, x.key ≠ r.key ∧ x.type.id = h ∧ x.key = k := by
      rintro ⟨x, hx, hne, hid, -⟩
      exact hfree x hx hne (hid.trans hh)
    simp [hh, hh ▸ hnone]
  · rw [if_neg (by simpa using hh)]
    by_cases hold : h = r.type.id
    · have hnone : ¬ ∃ x ∈ s.roots, x.key ≠ r.key ∧ x.type.id = h ∧ x.key = k := by
        rintro ⟨x, hx, hne, hid, -⟩
        exact hne (congrArg Entry.key (List.inj_on_of_nodup_map hids hx hr (hid.trans hold)))
      simp [hold, Index.get?_erase_self, hold ▸ hnone, hold ▸ Ne.symm hh]
    · rw [Index.get?_erase _ hold, hs h k]
      have hnew : ¬ (e.type.id = h ∧ e.key = k) := fun hnew => hh hnew.1.symm
      rw [or_iff_right hnew]
      refine exists_congr fun x => and_congr_right fun hmem => ?_
      refine (and_iff_right_of_imp fun hx hkey => hold ?_).symm
      rw [← hx.1, List.inj_on_of_nodup_map hkeys hmem hr hkey]

namespace Consistent

theorem rootKeys (hs : s.Consistent) : (s.roots.map (·.key)).Nodup :=
  hs.keys.sublist ((List.sublist_append_left _ _).map _)

theorem rootIds (hs : s.Consistent) : (s.roots.map (·.type.id)).Nodup := by
  refine List.Nodup.map_on (fun e he e' he' hid => ?_) (List.Nodup.of_map _ hs.rootKeys)
  have hfound := (hs.byHandle _ _).mpr ⟨e, he, rfl, rfl⟩
  have hfound' := (hs.byHandle _ _).mpr ⟨e', he', rfl, rfl⟩
  rw [hid, hfound', Option.some.injEq] at hfound
  exact List.inj_on_of_nodup_map hs.rootKeys he he' hfound.symm

/-- What is missing is a matter of the handles. -/
theorem sound (hs : s.Consistent) (hhandles : s.handles.Nodup)
    (hbelow : ∀ h ∈ s.handles, h < s.nextHandle) : s.Sound where
  keys := hs.rootKeys
  handles := hhandles
  below := hbelow
  byName := hs.byName
  byHandle e he := (hs.byHandle e.type.id e.key).mpr ⟨e, he, rfl, rfl⟩

theorem empty (config : Config) (n : Nat) : Consistent { config, nextHandle := n + 1 } where
  keys := List.nodup_nil
  below _ he := absurd he List.not_mem_nil
  positive := Int.lt_add_one_of_le (Int.natCast_nonneg n)
  nonzero _ he := absurd he List.not_mem_nil
  byName _ := rfl
  byHandle _ k := iff_of_false (Option.some_ne_none k).symm (by simp)

theorem enter (hs : s.Consistent) (t : SchemaType) : (s.enter t).2.Consistent where
  keys := by
    have hkeys : (s.enter t).2.entries.map (·.key) = s.entries.map (·.key) ++ [s.nextKey] := by
      simp [Store.enter, entries]
    rw [hkeys, List.nodup_append]
    refine ⟨hs.keys, List.nodup_singleton _, fun k hk k' hk' => ?_⟩
    obtain ⟨e, he, rfl⟩ := List.mem_map.mp hk
    rw [List.mem_singleton.mp hk']
    exact Nat.ne_of_lt (hs.below e he)
  below := hs.below.setAside [t]
  positive := hs.positive
  nonzero := hs.nonzero
  byName := hs.byName
  byHandle := hs.byHandle

/-- An entry with a handle that no root has becomes a root. -/
theorem add (hs : s.Consistent) (he : e ∈ s.aside)
    (hfree : ∀ r ∈ s.roots, r.type.id ≠ (e.type.assignHandles s.nextHandle).1.id) :
    (s.add e.key).Consistent := by
  have hkeys : ((s.add e.key).entries.map (·.key)).Perm (s.entries.map (·.key)) := by
    rw [add_eq hs.keys he]
    simp only [entries, List.map_append, List.append_assoc]
    exact (keys_filter_perm hs.keys he).append_left _
  constructor
  case keys => exact hkeys.nodup_iff.mpr hs.keys
  case below =>
    refine hs.below.of_keys hkeys.subset ?_
    rw [add_eq hs.keys he]
  case positive =>
    rw [add_eq hs.keys he]
    exact Int.lt_of_lt_of_le hs.positive (le_renumber _ _)
  case nonzero =>
    rw [add_eq hs.keys he]
    refine List.forall_mem_append.mpr ⟨hs.nonzero, List.forall_mem_singleton.mpr ?_⟩
    rw [id_assignHandles]
    split
    case isTrue => exact Int.ne_of_gt hs.positive
    case isFalse hid => exact hid
  case byName =>
    rw [add_eq hs.keys he]
    refine hs.byName.append (e := ⟨e.key, (e.type.assignHandles s.nextHandle).1⟩) rfl ?_
    simp only [qname_assignHandles]
  case byHandle =>
    intro h k
    rw [add_eq hs.keys he]
    simp only [Index.get?_insert, List.mem_append, List.mem_singleton, or_and_right, exists_or,
      exists_eq_left, beq_iff_eq]
    by_cases hh : h = (e.type.assignHandles s.nextHandle).1.id
    · have hnone : ¬ ∃ r ∈ s.roots, r.type.id = h ∧ r.key = k := by
        rintro ⟨r, hr, hid, -⟩
        exact hfree r hr (hid.trans hh)
      simp [hh, hh ▸ hnone]
    · simp [hh, Ne.symm hh, hs.byHandle h k]

/-- A consistent store stays so if its entries keep their numbers, the index by handle follows the roots
and the index by name is brought up to date for the names of which the roots say something new. -/
theorem foldl_reindex {s' : Store} {qs : List QName} (hs : s.Consistent)
    (hkeys : (s'.entries.map (·.key)).Perm (s.entries.map (·.key))) (hnextKey : s'.nextKey = s.nextKey)
    (hnext : s.nextHandle ≤ s'.nextHandle) (hnonzero : ∀ e ∈ s'.roots, e.type.id ≠ 0)
    (hbyName : s'.byName = s.byName) (hnames : ∀ q ∉ qs, s'.namesakes q = s.namesakes q)
    (hbyHandle : s'.IndexedByHandle) : (qs.foldl reindex s').Consistent := by
  have hindexed := hs.byName.foldl_reindex s' qs hbyName hnames
  obtain ⟨byName, heq, -⟩ := foldl_reindex_eq s' qs
  rw [heq] at hindexed ⊢
  exact {
    keys := hkeys.nodup_iff.mpr hs.keys
    below := hs.below.of_keys hkeys.subset hnextKey
    positive := Int.lt_of_lt_of_le hs.positive hnext
    nonzero := hnonzero
    byName := hindexed
    byHandle := hbyHandle }

theorem rename (hs : s.Consistent) (key : Nat) (q : QName) : (s.rename key q).Consistent := by
  cases ht : s.typeOfKey? key with
  | none => rwa [rename_of_typeOfKey?_none ht]
  | some t =>
    have hkeep : ∀ e : Entry,
        (if e.key = key then { e with type := { e.type with qname := q } } else e).key = e.key ∧
        (if e.key = key then { e with type := { e.type with qname := q } } else e).type.id = e.type.id := by
      intro e
      split
      · exact ⟨rfl, rfl⟩
      · exact ⟨rfl, rfl⟩
    rw [rename_of_typeOfKey? ht]
    refine hs.foldl_reindex (.of_eq ?_) rfl (Int.le_refl _) (fun e he => ?_) rfl
      (fun q' hq' => namesakes_updateEntry hs.rootKeys ht hq') fun h k => ?_
    · simp only [entries, updateEntry, ← List.map_append, List.map_map]
      exact List.map_congr_left fun e _ => (hkeep e).1
    · obtain ⟨e₀, he₀, rfl⟩ := List.mem_map.mp he
      exact (hkeep e₀).2 ▸ hs.nonzero e₀ he₀
    · refine (hs.byHandle h k).trans ?_
      simp only [updateEntry, List.mem_map, exists_exists_and_eq_and, hkeep]

theorem remove (hs : s.Consistent) (hkeys : ∀ k ∈ keys, ∃ e ∈ s.roots, e.key = k) :
    (s.remove keys).Consistent := by
  obtain ⟨aside, heq, -, haside⟩ := remove_eq_foldl s keys fun e he =>
    contains_given_iff hs.rootKeys hs.rootIds hkeys he
  rw [heq, haside hs.keys]
  refine hs.foldl_reindex (.map _ ?_) rfl (Int.le_refl _)
    (fun e he => hs.nonzero e (List.mem_of_mem_filter he)) rfl
    (fun q hq => congrArg (List.map _) (filter_remove hs.rootKeys hkeys hq)) fun h k => ?_
  · have hsplit := List.filter_append_perm (fun e : Entry => keys.contains e.key) s.roots
    rw [entries, ← List.append_assoc]
    refine List.perm_append_comm.trans ?_
    rw [← List.append_assoc]
    exact hsplit.append_right _
  · dsimp only
    by_cases hdropped : ∃ e ∈ s.roots.filter (fun e => keys.contains e.key), e.type.id = h
    · rw [get?_foldl_erase_self _ hdropped]
      refine iff_of_false (Option.some_ne_none k).symm ?_
      rintro ⟨e, he, hid, -⟩
      obtain ⟨e', he', hid'⟩ := hdropped
      obtain ⟨he, hleft⟩ := List.mem_filter.mp he
      obtain ⟨he', hgone⟩ := List.mem_filter.mp he'
      rw [List.inj_on_of_nodup_map hs.rootIds he he' (hid.trans hid'.symm), hgone] at hleft
      cases hleft
    · rw [get?_foldl_erase _ fun e he hid => hdropped ⟨e, he, hid⟩, hs.byHandle h k]
      refine exists_congr fun e => and_congr_left fun hid => ?_
      refine ⟨fun he => List.mem_filter.mpr ⟨he, ?_⟩, List.mem_of_mem_filter⟩
      by_contra hgone
      exact hdropped ⟨e, List.mem_filter.mpr ⟨he, by simpa using hgone⟩, hid.1⟩

theorem replace_eq_error (hs : s.Consistent) (hnone : ∀ e ∈ s.roots, e.type.id ≠ old) (key : Nat) :
    s.replace old key = .error { cause := .noRoot old } := by
  unfold Store.replace
  rw [hs.byHandle.get?_eq_none hnone]

/-- An entry without a handle, or with one that no root has, takes the place of a root. -/
theorem replace (hs : s.Consistent) (he : e ∈ s.aside) (hr : r ∈ s.roots)
    (hfree : e.type.id = 0 ∨ ∀ r ∈ s.roots, r.type.id ≠ e.type.id) :
    ∃ s', s.replace r.type.id e.key = .ok s' ∧ s'.Consistent := by
  have hreplace := replace_eq hs.keys he hr ((hs.byHandle _ _).mpr ⟨r, hr, rfl, rfl⟩)
  have hqname : ((e.type.succeeding r.type.id).assignHandles s.nextHandle).1.qname = e.type.qname := by
    rw [qname_assignHandles, qname_succeeding]
  have hid : ((e.type.succeeding r.type.id).assignHandles s.nextHandle).1.id =
      if e.type.id = 0 then r.type.id else e.type.id := by
    have hnonzero : (e.type.succeeding r.type.id).id ≠ 0 := by
      rw [id_succeeding]
      split
      case isTrue => exact hs.nonzero r hr
      case isFalse hne => exact hne
    rw [id_assignHandles, if_neg hnonzero, id_succeeding]
  have hnext : s.nextHandle ≤ ((e.type.succeeding r.type.id).assignHandles s.nextHandle).2 :=
    le_renumber _ _
  generalize (e.type.succeeding r.type.id).assignHandles s.nextHandle = assigned at hreplace hqname hid hnext
  obtain ⟨t, next⟩ := assigned
  dsimp only at hreplace hqname hid hnext
  refine ⟨_, hreplace, ?_⟩
  refine hs.foldl_reindex (keys_swap_perm hs.keys he hr t) rfl hnext (fun x hx => ?_) rfl
    (fun q hq => ?_) ?_
  · obtain rfl | ⟨hx, -⟩ := (mem_swap_iff hr).mp hx
    · rw [hid]
      split
      case isTrue => exact hs.nonzero r hr
      case isFalse hne => exact hne
    · exact hs.nonzero x hx
  · simp only [List.mem_cons, List.not_mem_nil, or_false, not_or] at hq
    exact congrArg (List.map _) (filter_swap hs.rootKeys hr hq.1 (hqname ▸ hq.2))
  · refine hs.byHandle.swap hs.rootKeys hs.rootIds hr (e := ⟨e.key, t⟩) (fun x hx hne hsame => ?_) rfl rfl
    rw [hid] at hsame
    split at hsame
    case isTrue => exact hne (congrArg Entry.key (List.inj_on_of_nodup_map hs.rootIds hx hr hsame))
    case isFalse hnonzero => exact hfree.elim hnonzero fun hfree => hfree x hx hsame

end Consistent

end Store

-- ---------------------------------------------------------------------------
-- Histories
-- ---------------------------------------------------------------------------

/-- What can happen to a store. -/
inductive Operation where
  /-- A type enters the store; it is no root yet. -/
  | enter (t : SchemaType)
  | add (key : Nat)
  | extend (keys : List Nat)
  | remove (keys : List Nat)
  | replace (old : Handle) (key : Nat)
  | rename (key : Nat) (q : QName)

namespace Store

/-- The entry is no root, and no root has its handle, or the handle that it gets if it has none. -/
def Admits (s : Store) (key : Nat) : Prop :=
  ∃ e ∈ s.aside, e.key = key ∧ (e.type.id ≠ 0 → ∀ r ∈ s.roots, r.type.id ≠ e.type.id) ∧
    (e.type.id = 0 → ∀ r ∈ s.roots, r.type.id ≠ s.nextHandle)

/-- Each entry is admitted once those before it have become roots. -/
def AdmitsAll (s : Store) : List Nat → Prop
  | [] => True
  | key :: keys => s.Admits key ∧ (s.add key).AdmitsAll keys

instance (s : Store) (key : Nat) : Decidable (s.Admits key) :=
  inferInstanceAs (Decidable (∃ e ∈ s.aside, e.key = key ∧
    (e.type.id ≠ 0 → ∀ r ∈ s.roots, r.type.id ≠ e.type.id) ∧
    (e.type.id = 0 → ∀ r ∈ s.roots, r.type.id ≠ s.nextHandle)))

instance decidableAdmitsAll : (s : Store) → (keys : List Nat) → Decidable (s.AdmitsAll keys)
  | _, [] => .isTrue trivial
  | s, key :: keys =>
    have := decidableAdmitsAll (s.add key) keys
    inferInstanceAs (Decidable (s.Admits key ∧ (s.add key).AdmitsAll keys))

end Store

namespace Operation

/-- A replacement that fails leaves the store as it is. -/
def run (s : Store) : Operation → Store
  | enter t => (s.enter t).2
  | add key => s.add key
  | extend keys => keys.foldl Store.add s
  | remove keys => s.remove keys
  | replace old key => match s.replace old key with
    | .ok s' => s'
    | .error _ => s
  | rename key q => s.rename key q

/-- What the changes ask for. A replacement that fails asks for nothing. -/
def Allowed (s : Store) : Operation → Prop
  | enter _ => True
  | add key => s.Admits key
  | extend keys => s.AdmitsAll keys
  | remove keys => ∀ k ∈ keys, ∃ e ∈ s.roots, e.key = k
  | replace old key => (∀ r ∈ s.roots, r.type.id ≠ old) ∨
      ∃ e ∈ s.aside, e.key = key ∧ (e.type.id = 0 ∨ ∀ r ∈ s.roots, r.type.id ≠ e.type.id)
  | rename _ _ => True

instance (s : Store) : (op : Operation) → Decidable (op.Allowed s)
  | enter _ | rename _ _ => .isTrue trivial
  | add key => inferInstanceAs (Decidable (s.Admits key))
  | extend keys => inferInstanceAs (Decidable (s.AdmitsAll keys))
  | remove keys => inferInstanceAs (Decidable (∀ k ∈ keys, ∃ e ∈ s.roots, e.key = k))
  | replace old key => inferInstanceAs (Decidable ((∀ r ∈ s.roots, r.type.id ≠ old) ∨
      ∃ e ∈ s.aside, e.key = key ∧ (e.type.id = 0 ∨ ∀ r ∈ s.roots, r.type.id ≠ e.type.id)))

/-- Each change is allowed once those before it have been made. -/
def AllowedAll (s : Store) : List Operation → Prop
  | [] => True
  | op :: ops => op.Allowed s ∧ AllowedAll (op.run s) ops

instance decidableAllowedAll : (s : Store) → (ops : List Operation) → Decidable (AllowedAll s ops)
  | _, [] => .isTrue trivial
  | s, op :: ops =>
    have := decidableAllowedAll (op.run s) ops
    inferInstanceAs (Decidable (op.Allowed s ∧ AllowedAll (op.run s) ops))

end Operation

namespace Store

theorem Consistent.admits (hs : s.Consistent) (hkey : s.Admits key) : (s.add key).Consistent := by
  obtain ⟨e, he, rfl, hown, hnext⟩ := hkey
  refine hs.add he fun r hr => ?_
  rw [id_assignHandles]
  split
  case isTrue hzero => exact hnext hzero r hr
  case isFalse hnonzero => exact hown hnonzero r hr

/-- One step of a history. -/
theorem Consistent.run (hs : s.Consistent) (op : Operation) (hop : op.Allowed s) : (op.run s).Consistent := by
  cases op with
  | enter t => exact hs.enter t
  | add key => exact hs.admits hop
  | extend keys =>
    simp only [Operation.run, Operation.Allowed] at hop ⊢
    induction keys generalizing s with
    | nil => exact hs
    | cons key keys ih => exact ih (hs.admits hop.1) hop.2
  | remove keys => exact hs.remove hop
  | replace old key =>
    simp only [Operation.run]
    by_cases hnone : ∀ r ∈ s.roots, r.type.id ≠ old
    · rwa [hs.replace_eq_error hnone]
    · obtain ⟨e, he, rfl, hfree⟩ := hop.resolve_left hnone
      simp only [not_forall, not_not] at hnone
      obtain ⟨r, hr, rfl⟩ := hnone
      obtain ⟨s', heq, hs'⟩ := hs.replace he hr hfree
      rwa [heq]
  | rename key q => exact hs.rename key q

theorem Consistent.runAll (hs : s.Consistent) {ops : List Operation} (hops : Operation.AllowedAll s ops) :
    (ops.foldl Operation.run s).Consistent := by
  induction ops generalizing s with
  | nil => exact hs
  | cons op ops ih => exact ih (hs.run op hops.1) hops.2

-- ---------------------------------------------------------------------------
-- What a store answers
-- ---------------------------------------------------------------------------

/-- All answers of a store are those that its list of roots gives. -/
structure Agrees (s : Store) : Prop where
  bucket : ∀ q, s.bucket q = s.roots.filter (·.type.qname == q)
  /-- The names are those of the roots, in the order in which they come first. -/
  qnames : (∀ q, q ∈ s.qnames ↔ ∃ e ∈ s.roots, e.type.qname = q) ∧
    s.qnames.Pairwise fun q q' =>
      (s.roots.map (·.type.qname)).idxOf q < (s.roots.map (·.type.qname)).idxOf q'
  byHandle : s.IndexedByHandle
  contains : ∀ key, s.contains key = true ↔ ∃ e ∈ s.roots, e.key = key
  ofRoot : ∀ e ∈ s.roots, s.ofHandle? e.type.id = some e.type
  /-- A handle that no root has is that of the first nested type that has it. -/
  ofNested : ∀ h, (∀ e ∈ s.roots, e.type.id ≠ h) →
    s.ofHandle? h = (s.types.flatMap fun t => walkAll t.inner).find? (·.id == h)
  lookup : ∀ q p, s.lookup? q p = ((s.bucket q).map (·.type)).find? p
  /-- A replacement fails when there is no root to replace, and leaves all as it is then. -/
  fails : ∀ old key, (∀ e ∈ s.roots, e.type.id ≠ old) →
    s.replace old key = .error { cause := .noRoot old } ∧ (Operation.replace old key).run s = s
  /-- Otherwise it does not fail. -/
  succeeds : ∀ r ∈ s.roots, ∀ e ∈ s.aside,
    (e.type.id = 0 ∨ ∀ r ∈ s.roots, r.type.id ≠ e.type.id) → ∃ s', s.replace r.type.id e.key = .ok s'

theorem Consistent.contains_iff (hs : s.Consistent) (key : Nat) :
    s.contains key = true ↔ ∃ e ∈ s.roots, e.key = key := by
  unfold contains
  cases ht : s.typeOfKey? key with
  | none =>
    refine iff_of_false Bool.false_ne_true ?_
    rintro ⟨e, he, rfl⟩
    rw [typeOfKey?_of_mem hs.rootKeys he] at ht
    cases ht
  | some t =>
    simp only [beq_iff_eq, hs.byHandle t.id key]
    constructor
    · rintro ⟨e, he, -, hkey⟩
      exact ⟨e, he, hkey⟩
    · rintro ⟨e, he, rfl⟩
      rw [typeOfKey?_of_mem hs.rootKeys he, Option.some.injEq] at ht
      exact ⟨e, he, congrArg SchemaType.id ht, rfl⟩

theorem Consistent.ofHandle?_root (hs : s.Consistent) (he : e ∈ s.roots) :
    s.ofHandle? e.type.id = some e.type := by
  unfold ofHandle?
  rw [(hs.byHandle _ _).mpr ⟨e, he, rfl, rfl⟩]
  exact typeOfKey?_of_mem hs.rootKeys he

theorem find?_walkAll {ts : List SchemaType} (hts : ∀ t ∈ ts, t.id ≠ h) :
    (walkAll ts).find? (·.id == h) = (ts.flatMap fun t => walkAll t.inner).find? (·.id == h) := by
  induction ts with
  | nil => rfl
  | cons t ts ih =>
    obtain ⟨ht, hts⟩ := List.forall_mem_cons.mp hts
    rw [walkAll_eq_flatMap, List.flatMap_cons, walk_eq, List.cons_append,
      List.find?_cons_of_neg (by simpa using ht), List.find?_append, ← walkAll_eq_flatMap, ih hts,
      List.flatMap_cons, List.find?_append]

theorem Consistent.ofHandle?_nested (hs : s.Consistent) (hh : ∀ e ∈ s.roots, e.type.id ≠ h) :
    s.ofHandle? h = (s.types.flatMap fun t => walkAll t.inner).find? (·.id == h) := by
  unfold ofHandle?
  rw [hs.byHandle.get?_eq_none hh]
  exact find?_walkAll fun t ht => by
    obtain ⟨e, he, rfl⟩ := List.mem_map.mp ht
    exact hh e he

theorem Consistent.agrees (hs : s.Consistent) : s.Agrees where
  bucket := hs.byName.bucket hs.rootKeys
  qnames := by
    have hnames : s.qnames = (s.roots.map (·.type.qname)).eraseDups := by
      rw [qnames, types, List.map_map]
      rfl
    rw [hnames]
    refine ⟨fun q => ?_, Lists.pairwise_idxOf_eraseDups _⟩
    rw [List.mem_eraseDups, List.mem_map]
  byHandle := hs.byHandle
  contains := hs.contains_iff
  ofRoot _ he := hs.ofHandle?_root he
  ofNested _ hh := hs.ofHandle?_nested hh
  lookup q p := by
    rw [lookup?, lookupEntry?, List.find?_map]
    rfl
  fails old key hnone := by
    have herror := hs.replace_eq_error hnone key
    exact ⟨herror, by rw [Operation.run, herror]⟩
  succeeds r hr e he hfree := by
    obtain ⟨s', heq, -⟩ := hs.replace he hr hfree
    exact ⟨s', heq⟩

/-- Whatever has happened to a store that was empty, its indices say what its roots say. -/
theorem agrees_of_operations (config : Config) (n : Nat) (ops : List Operation)
    (hops : Operation.AllowedAll { config, nextHandle := n + 1 } ops) :
    (ops.foldl Operation.run { config, nextHandle := n + 1 }).Agrees :=
  ((Consistent.empty config n).runAll hops).agrees

end Store

namespace Eventful

/-- Three types become roots. The first one goes and comes back, the second one gets the name of the
third, and another type takes the place of the third. -/
def operations : List Operation := [
  .enter { qname := ⟨"urn:t", "A"⟩, inner := [{ qname := ⟨"urn:t", "part"⟩ }] },
  .enter { qname := ⟨"urn:t", "A"⟩, id := 9 },
  .enter { qname := ⟨"urn:t", "B"⟩ },
  .extend [0, 1, 2],
  .remove [0],
  .rename 1 ⟨"urn:t", "B"⟩,
  .enter { qname := ⟨"urn:t", "C"⟩ },
  .replace 8 3,
  .replace 3 3,
  .add 0]

theorem answers :
    (operations.foldl Operation.run { nextHandle := 1 }).roots.map (fun e => (e.key, e.type.id)) =
      [(1, 9), (3, 3), (0, 1)] ∧
    (operations.foldl Operation.run { nextHandle := 1 }).Agrees :=
  ⟨by decide +kernel, Store.agrees_of_operations {} 0 operations (by decide +kernel)⟩

end Eventful

end Schemata
