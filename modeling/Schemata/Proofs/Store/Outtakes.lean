import Schemata.Proofs.Store.Exchange

/-!
# Types taken out of a tree

A pass may take inner types out of the type that it works on. They stay in the store, aside: `taken`
lists those that have been taken out since a given entry number. A type is near to another as long as
it is nested in it or has been taken out.
-/

namespace Schemata.SchemaType

variable {t u v : SchemaType} {h : Handle} {g : SchemaType → SchemaType} {p : SchemaType → Bool}

/-- The type with those of its inner types that satisfy the condition. -/
def keeping (p : SchemaType → Bool) (t : SchemaType) : SchemaType :=
  t.withInner (t.inner.filter p)

theorem mem_inner_keeping {c : SchemaType} (hc : c ∈ t.inner) (hp : p c = true) : c ∈ (t.keeping p).inner :=
  List.mem_filter.mpr ⟨hc, hp⟩

theorem mem_filter_not {c : SchemaType} (hc : c ∈ t.inner) (hp : p c = false) : c ∈ t.inner.filter (!p ·) :=
  List.mem_filter.mpr ⟨hc, by rw [hp]; rfl⟩

theorem updateAt_keeping_id (t : SchemaType) : (t.updateAt h (keeping p)).id = t.id :=
  read_updateAt (g := keeping p) (·.id) (fun _ => rfl) (fun _ _ => rfl) t

theorem updateAt_keeping_qname (t : SchemaType) : (t.updateAt h (keeping p)).qname = t.qname :=
  read_updateAt (g := keeping p) (·.qname) (fun _ => rfl) (fun _ _ => rfl) t

/-- What is nested in a type stays so in the changed type, unless the change loses the inner type that
it is in. -/
theorem Nested.updateAt (hg : ∀ t, ∀ c ∈ t.inner, p c = true → c ∈ (g t).inner) (ht : t.handles.Nodup)
    (hv : Nested v t) : Nested (v.updateAt h g) (t.updateAt h g) ∨
      ∃ u, Within u t ∧ u.id = h ∧ ∃ c ∈ u.inner, p c = false ∧ Within v c := by
  induction t using induct with
  | type t ih =>
    have hnot := not_mem_handles_of_nested ht hv
    obtain ⟨c, hc, hv⟩ := hv
    by_cases hid : t.id = h
    · rw [hid] at hnot
      rw [updateAt_of_eq hid, updateAt_of_not_mem hnot]
      cases hp : p c with
      | true => exact .inl ⟨c, hg t c hc hp, hv⟩
      | false => exact .inr ⟨t, .self, hid, c, hc, hp, hv⟩
    · rw [updateAt_of_ne hid]
      cases hv with
      | self => exact .inl ⟨_, List.mem_map_of_mem hc, .self⟩
      | inner hd hv =>
        obtain hstays | ⟨u, hu, hlost⟩ := ih c hc (nodup_handles_inner ht hc) ⟨_, hd, hv⟩
        · exact .inl ⟨_, List.mem_map_of_mem hc, hstays.within⟩
        · exact .inr ⟨u, .inner hc hu, hlost⟩

theorem Within.updateAt (hg : ∀ t, ∀ c ∈ t.inner, p c = true → c ∈ (g t).inner) (ht : t.handles.Nodup)
    (hv : Within v t) : Within (v.updateAt h g) (t.updateAt h g) ∨
      ∃ u, Within u t ∧ u.id = h ∧ ∃ c ∈ u.inner, p c = false ∧ Within v c := by
  cases hv with
  | self => exact .inl .self
  | inner hc hv => exact (Nested.updateAt hg ht ⟨_, hc, hv⟩).imp_left Nested.within

/-- What is left of a tree when inner types are taken out of one of its types. -/
theorem within_of_updateAt_keeping (ht : t.handles.Nodup) (hv : Within v (t.updateAt h (keeping p))) :
    ∃ u, Within u t ∧ u.updateAt h (keeping p) = v := by
  obtain hv | ⟨u, hu, hid, c, hc, hv⟩ := within_of_updateAt hv
  · exact hv
  · have hnested : Nested v u := ⟨c, List.mem_of_mem_filter hc, hv⟩
    refine ⟨v, hnested.within.trans hu, updateAt_of_not_mem ?_⟩
    rw [← hid]
    exact not_mem_handles_of_nested (hu.nodup_handles ht) hnested

theorem handles_keeping_perm (p : SchemaType → Bool) (t : SchemaType) :
    ((t.keeping p).handles ++ (t.inner.filter (!p ·)).flatMap handles).Perm t.handles := by
  rw [handles_eq, handles_eq, List.cons_append]
  refine List.Perm.cons _ ?_
  rw [keeping, withInner_inner, ← List.flatMap_append]
  exact (List.filter_append_perm p t.inner).flatMap_right _

end Schemata.SchemaType

namespace Schemata.Store

open SchemaType

variable {s s' : Store} {t u v : SchemaType} {h k next : Handle} {q : QName} {key : Nat}
  {g : SchemaType → SchemaType} {p : SchemaType → Bool} {extra : List SchemaType}

/-- The types that have been taken out since an entry number. -/
def taken (s : Store) (key : Nat) : List SchemaType :=
  (s.aside.filter (key ≤ ·.key)).map (·.type)

/-- A type with the handle and the name is nested in the type or has been taken out. -/
def Near (s : Store) (key : Nat) (u : SchemaType) (k : Handle) (q : QName) : Prop :=
  ∃ v, (v.Nested u ∨ v ∈ walkAll (s.taken key)) ∧ v.id = k ∧ v.qname = q

/-- Keeps aside what is taken out of a type. -/
def takeOut (s : Store) (t : SchemaType) (p : SchemaType → Bool) : Store :=
  (s.update t.id (keeping p)).setAside (t.inner.filter (!p ·))

theorem taken_setAside (hkey : key ≤ s.nextKey) (ts : List SchemaType) :
    (s.setAside ts).taken key = s.taken key ++ ts := by
  unfold setAside
  induction ts generalizing s with
  | nil => exact (List.append_nil _).symm
  | cons t ts ih =>
    rw [List.foldl_cons, ih (s := (s.enter t).2) (Nat.le_succ_of_le hkey)]
    simp [taken, enter, hkey]

theorem Whole.nodup_handles (hs : s.Whole) : s.handles.Nodup := by
  have hnodup := hs.handles.nodup
  rw [stock, entries, List.map_append, List.flatMap_append] at hnodup
  exact (List.nodup_append.mp hnodup).1

/-- What is kept aside is nowhere in the roots. -/
theorem Whole.not_mem_taken (hs : s.Whole) (ht : s.Holds t) (key : Nat) :
    t.id ∉ (s.taken key).flatMap SchemaType.handles := by
  have hnodup := hs.handles.nodup
  rw [stock, entries, List.map_append, List.flatMap_append] at hnodup
  obtain ⟨-, -, hdisjoint⟩ := List.nodup_append'.mp hnodup
  refine fun hmem => hdisjoint (Store.mem_handles_iff.mpr ⟨t, ht, rfl⟩) ?_
  obtain ⟨u, hu, hmem⟩ := List.mem_flatMap.mp hmem
  obtain ⟨e, he, rfl⟩ := List.mem_map.mp hu
  exact List.mem_flatMap.mpr ⟨e.type, List.mem_map_of_mem (List.mem_of_mem_filter he), hmem⟩

theorem Whole.taken_update (hs : s.Whole) (ht : s.Holds t) (g : SchemaType → SchemaType) (next : Handle)
    (key : Nat) : ({ s with nextHandle := next }.update t.id g).taken key = s.taken key := by
  refine Eq.trans ?_ (map_updateAt_of_not_mem (g := g) (hs.not_mem_taken ht key))
  simp only [taken, Store.update, List.filter_map, List.map_map]
  rfl

theorem Near.of_taken (hv : v ∈ walkAll (s.taken key)) (u : SchemaType) : s.Near key u v.id v.qname :=
  ⟨v, .inr hv, rfl, rfl⟩

/-- What becomes of a store, and of the type that is worked on, when only this type is changed, the
copies `extra` are put into it and inner types may be taken out of it. -/
structure Reworks (key : Nat) (extra : List SchemaType) (s : Store) (t : SchemaType) (s' : Store)
    (t' : SchemaType) : Prop where
  whole : s'.Whole
  le : s.nextKey ≤ s'.nextKey
  held : s'.Holds t'
  id : t'.id = t.id
  others : ∀ u, s.Knows u → u.id ≠ t.id → ∃ u', s'.Knows u' ∧ u'.id = u.id ∧ u'.fields = u.fields ∧
    ∀ k q, s.Near key u k q → s'.Near key u' k q
  own : ∀ k q, s.Near key t k q → s'.Near key t' k q
  inner : ∀ c ∈ t.inner, c ∈ t'.inner ∨ c ∈ s'.taken key
  sources : ∀ u', s'.Knows u' → u'.id ≠ t.id →
    (∃ u inner, s.Knows u ∧ u' = u.withInner inner ∧ ∀ k q, s.Near key u k q → s'.Near key u' k q) ∨
    (∃ x ∈ extra, Within u' x) ∧ ∃ u, s.Knows u ∧ u'.SpeaksAs u ∧
      ∀ k q, s.Near key u k q → ∃ k', s'.Near key u' k' q

/-- A change of the type itself that may add copies of types that the store knows. -/
theorem Whole.reworks_update (hs : s.Whole) (ht : s.Holds t) (hg : Extends g extra)
    (hextra : Numbered (extra.flatMap SchemaType.handles) s.nextHandle next)
    (hcopies : ∀ x ∈ extra, ∀ v, Within v x → ∃ u, s.Knows u ∧ v.SpeaksAs u ∧
      (walkAll v.inner).map (·.qname) = (walkAll u.inner).map (·.qname)) (key : Nat) :
    Reworks key extra s t ({ s with nextHandle := next }.update t.id g) (g t) := by
  have htaken := hs.taken_update ht g next key
  have hknows : ∀ u, s.Knows u → ({ s with nextHandle := next }.update t.id g).Knows (u.updateAt t.id g) :=
    fun u => Whole.knows_update (s := s) hs hg.widens
  have hnear : ∀ u, s.Knows u → ∀ k q, s.Near key u k q →
      ({ s with nextHandle := next }.update t.id g).Near key (u.updateAt t.id g) k q := by
    rintro u hu k q ⟨v, hv | hv, rfl, rfl⟩
    · obtain hv | ⟨_, _, _, _, _, hfalse, _⟩ := hv.updateAt (h := t.id) (g := g) (p := fun _ => true)
        (fun u c hc _ => hg.inner u ▸ List.mem_append_left _ hc) (hu.nodup_handles hs)
      · exact ⟨_, .inl hv, hg.widens.updateAt_id v, hg.updateAt_qname v⟩
      · cases hfalse
    · exact ⟨v, .inr (htaken.symm ▸ hv), rfl, rfl⟩
  constructor
  case whole => exact hs.update hg.widens ht.knows hextra
  case le => exact Nat.le_refl _
  case held =>
    have hheld := holds_update (s := { s with nextHandle := next }) (h := t.id) hg hs.nodup_handles ht
    rwa [updateAt_of_eq rfl] at hheld
  case id => exact hg.id t
  case others =>
    intro u hu hne
    refine ⟨_, hknows u hu, hg.widens.updateAt_id u, ?_, hnear u hu⟩
    rw [updateAt_of_ne hne]
    rfl
  case own =>
    intro k q hkq
    have h := hnear t ht.knows k q hkq
    rwa [updateAt_of_eq rfl] at h
  case inner =>
    intro c hc
    rw [hg.inner]
    exact .inl (List.mem_append_left _ hc)
  case sources =>
    rintro u' ⟨r', hr', hu'⟩ hne
    rw [stock_update] at hr'
    obtain ⟨r, hr, rfl⟩ := List.mem_map.mp hr'
    have hr : s.Knows r := ⟨r, hr, .self⟩
    obtain ⟨u, hu, rfl⟩ | ⟨x, hx, hu'⟩ := hg.widens.within_of_updateAt (hr.nodup_handles hs) hu'
    · have hu := hr.within hu
      rw [hg.widens.updateAt_id] at hne
      exact .inl ⟨u, _, hu, updateAt_of_ne hne, hnear u hu⟩
    · obtain ⟨u, hu, hspeaks, hnames⟩ := hcopies x hx u' hu'
      refine .inr ⟨⟨x, hx, hu'⟩, u, hu, hspeaks, ?_⟩
      rintro k q ⟨v, hv | hv, rfl, rfl⟩
      · have hmem := List.mem_map_of_mem (f := (·.qname)) (mem_walkAll_inner_iff.mpr hv)
        rw [← hnames] at hmem
        obtain ⟨v', hv', hq⟩ := List.mem_map.mp hmem
        exact ⟨v'.id, v', .inl (mem_walkAll_inner_iff.mp hv'), rfl, hq⟩
      · exact ⟨v.id, v, .inr (htaken.symm ▸ hv), rfl, rfl⟩

theorem stock_takeOut (s : Store) (t : SchemaType) (p : SchemaType → Bool) :
    (s.takeOut t p).stock = s.stock.map (updateAt t.id (keeping p)) ++ t.inner.filter (!p ·) := by
  rw [takeOut, stock_setAside, stock_update]

theorem Whole.takeOut (hs : s.Whole) (ht : s.Holds t) (p : SchemaType → Bool) : (s.takeOut t p).Whole :=
  (hs.exchanges_setAside ht.knows rfl rfl (handles_keeping_perm p t)).whole

theorem Whole.taken_takeOut (hs : s.Whole) (ht : s.Holds t) (hkey : key ≤ s.nextKey)
    (p : SchemaType → Bool) : (s.takeOut t p).taken key = s.taken key ++ t.inner.filter (!p ·) := by
  rw [← hs.taken_update ht (keeping p) s.nextHandle key]
  exact taken_setAside (s := s.update t.id (keeping p)) hkey _

/-- What was near to a type is near to it after inner types of some type have been taken out. -/
theorem Whole.near_takeOut (hs : s.Whole) (ht : s.Holds t) (hkey : key ≤ s.nextKey)
    (p : SchemaType → Bool) (hu : s.Knows u) (hkq : s.Near key u k q) :
    (s.takeOut t p).Near key (u.updateAt t.id (keeping p)) k q := by
  have htaken := hs.taken_takeOut ht hkey p
  obtain ⟨v, hv | hv, rfl, rfl⟩ := hkq
  · obtain hv | ⟨w, hw, hid, c, hc, hp, hv⟩ :=
      hv.updateAt (h := t.id) (fun _ _ => mem_inner_keeping) (hu.nodup_handles hs)
    · exact ⟨_, .inl hv, updateAt_keeping_id v, updateAt_keeping_qname v⟩
    · obtain rfl := (hu.within hw).eq_of_id hs ht.knows hid
      refine .of_taken (mem_walkAll_iff.mpr ⟨c, ?_, hv⟩) _
      rw [htaken]
      exact List.mem_append_right _ (mem_filter_not hc hp)
  · obtain ⟨c, hc, hv⟩ := mem_walkAll_iff.mp hv
    refine .of_taken (mem_walkAll_iff.mpr ⟨c, ?_, hv⟩) _
    rw [htaken]
    exact List.mem_append_left _ hc

/-- All types are there after inner types of one of them have been taken out. -/
theorem Whole.knows_takeOut (hs : s.Whole) (ht : s.Holds t) (p : SchemaType → Bool) (hu : s.Knows u) :
    (s.takeOut t p).Knows (u.updateAt t.id (keeping p)) := by
  obtain ⟨r, hr, hur⟩ := hu
  have hnodup := Knows.nodup_handles hs ⟨r, hr, .self⟩
  rw [Knows, stock_takeOut]
  obtain hstays | ⟨w, hw, hid, c, hc, hp, hin⟩ :=
    hur.updateAt (h := t.id) (fun _ _ => mem_inner_keeping) hnodup
  · exact ⟨_, List.mem_append_left _ (List.mem_map_of_mem hr), hstays⟩
  · have hnot := not_mem_handles_of_nested (hw.nodup_handles hnodup) ⟨c, hc, hin⟩
    rw [hid] at hnot
    rw [updateAt_of_not_mem hnot]
    obtain rfl := Knows.eq_of_id hs ⟨r, hr, hw⟩ ht.knows hid
    exact ⟨c, List.mem_append_right _ (mem_filter_not hc hp), hin⟩

theorem Whole.exists_of_knows_takeOut (hs : s.Whole) (ht : s.Holds t) (hv : (s.takeOut t p).Knows v) :
    ∃ u, s.Knows u ∧ u.updateAt t.id (keeping p) = v := by
  obtain ⟨r', hr', hv⟩ := hv
  rw [stock_takeOut, List.mem_append, List.mem_map] at hr'
  obtain ⟨r, hr, rfl⟩ | hr' := hr'
  · have hr : s.Knows r := ⟨r, hr, .self⟩
    obtain ⟨u, hu, rfl⟩ := within_of_updateAt_keeping (hr.nodup_handles hs) hv
    exact ⟨u, hr.within hu, rfl⟩
  · -- what has been taken out is as it was
    have hnested : Nested v t := ⟨r', List.mem_of_mem_filter hr', hv⟩
    exact ⟨v, ht.knows.within hnested.within,
      updateAt_of_not_mem (not_mem_handles_of_nested (ht.knows.nodup_handles hs) hnested)⟩

theorem Whole.holds_takeOut (hs : s.Whole) (ht : s.Holds t) (p : SchemaType → Bool) :
    (s.takeOut t p).Holds (t.keeping p) := by
  have hex := hs.exchanges_setAside ht.knows rfl rfl (handles_keeping_perm p t)
  obtain ⟨r, hr, htr⟩ := ht
  exact ⟨_, hex.roots r hr, htr.updateAt_target (nodup_handles_of_mem hs.nodup_handles hr)⟩

/-- Inner types that are taken out of a type are kept. -/
theorem Whole.reworks_takeOut (hs : s.Whole) (ht : s.Holds t) (hkey : key ≤ s.nextKey)
    (p : SchemaType → Bool) : Reworks key [] s t (s.takeOut t p) (t.keeping p) := by
  have hnear : ∀ u, s.Knows u → ∀ k q, s.Near key u k q →
      (s.takeOut t p).Near key (u.updateAt t.id (keeping p)) k q :=
    fun _ hu _ _ => hs.near_takeOut ht hkey p hu
  constructor
  case whole => exact hs.takeOut ht p
  case le =>
    obtain ⟨aside, nextKey, heq, hle⟩ := setAside_eq (s.update t.id (keeping p)) (t.inner.filter (!p ·))
    rw [Store.takeOut, heq]
    exact hle
  case held => exact hs.holds_takeOut ht p
  case id => rfl
  case others =>
    intro u hu hne
    refine ⟨_, hs.knows_takeOut ht p hu, updateAt_keeping_id u, ?_, hnear u hu⟩
    rw [updateAt_of_ne hne]
    rfl
  case own =>
    intro k q hkq
    have h := hnear t ht.knows k q hkq
    rwa [updateAt_of_eq rfl] at h
  case inner =>
    intro c hc
    cases hp : p c with
    | true => exact .inl (mem_inner_keeping hc hp)
    | false =>
      rw [hs.taken_takeOut ht hkey p]
      exact .inr (List.mem_append_right _ (mem_filter_not hc hp))
  case sources =>
    intro u' hu' hne
    obtain ⟨u, hu, rfl⟩ := hs.exists_of_knows_takeOut ht hu'
    rw [updateAt_keeping_id] at hne
    exact .inl ⟨u, _, hu, updateAt_of_ne hne, hnear u hu⟩

end Schemata.Store
