import Schemata.Proofs.Store.Whole

/-!
# A type in the place of another

Most of what a step does to a store is to put another type in the place of one. Inner types that the
new type does not have any more stay in the store, aside or as roots. All else is where it was, and has
at most less to do in it.
-/

namespace Schemata

open SchemaType

variable {s s' : Store} {t t' u v r : SchemaType} {h next : Handle} {busy : Status}
  {g : SchemaType → SchemaType} {extra apart : List SchemaType}

namespace SchemaType

/-- What a tree holds is there with the change, unless it is nested in the type that is changed. -/
theorem Within.updateAt_or_nested (hv : Within v t) :
    Within (v.updateAt h g) (t.updateAt h g) ∨ ∃ u, Within u t ∧ u.id = h ∧ Nested v u := by
  induction hv with
  | self => exact .inl .self
  | @inner t c hc hv ih =>
    by_cases hid : t.id = h
    · exact .inr ⟨t, .self, hid, c, hc, hv⟩
    · rw [updateAt_of_ne hid]
      obtain ih | ⟨u, hu, hid', hnested⟩ := ih
      · exact .inl (.inner (List.mem_map_of_mem hc) ih)
      · exact .inr ⟨u, .inner hc hu, hid', hnested⟩

/-- What is put in the place of a type is in the tree. -/
theorem Within.updateAt_target (ht : t.handles.Nodup) (hv : Within v t) :
    Within t' (t.updateAt v.id fun _ => t') := by
  obtain hstays | ⟨u, hu, hid, hnested⟩ := hv.updateAt_or_nested (h := v.id) (g := fun _ => t')
  · rwa [updateAt_of_eq rfl] at hstays
  · -- the type is not nested in itself
    refine absurd (mem_handles_iff.mpr ⟨v, .self, rfl⟩) ?_
    rw [← hid]
    exact not_mem_handles_of_nested (hu.nodup_handles ht) hnested

theorem pending_updateAt_subset
    (hg : ∀ u, Within u t → u.id = h → (g u).pending busy ⊆ u.pending busy) :
    (t.updateAt h g).pending busy ⊆ t.pending busy := by
  induction t using induct with
  | type t ih =>
    by_cases hid : t.id = h
    · rw [updateAt_of_eq hid]
      exact hg t .self hid
    · rw [pending_eq, pending_eq t, updateAt_of_ne hid, withInner_id, withInner_inner, List.flatMap_map]
      refine List.append_subset.mpr ⟨List.subset_append_left _ _, fun k hk => ?_⟩
      obtain ⟨c, hc, hk⟩ := List.mem_flatMap.mp hk
      have hsub := ih c hc fun u hu => hg u (.inner hc hu)
      exact List.mem_append_right _ (List.mem_flatMap.mpr ⟨c, hc, hsub hk⟩)

end SchemaType

namespace Store

theorem update_congr {f : SchemaType → SchemaType} (hfg : ∀ u, s.Knows u → u.id = h → f u = g u) :
    s.update h f = s.update h g := by
  have hmap : ∀ es ⊆ s.entries, es.map (fun e : Entry => { e with type := e.type.updateAt h f }) =
      es.map fun e => { e with type := e.type.updateAt h g } := by
    intro es hes
    refine List.map_congr_left fun e he => ?_
    have heq : e.type.updateAt h f = e.type.updateAt h g :=
      updateAt_congr fun u hu => hfg u ⟨e.type, List.mem_map_of_mem (hes he), hu⟩
    rw [heq]
  simp only [Store.update, hmap s.roots (List.subset_append_left _ _),
    hmap s.aside (List.subset_append_right _ _)]

/-- In the place of a type comes another, and what is to stand apart is added as an entry. -/
structure Exchanges (t t' : SchemaType) (apart : List SchemaType) (s s' : Store) : Prop where
  whole : s'.Whole
  stock : s'.stock.Perm (s.stock.map (updateAt t.id fun _ => t') ++ apart)
  id : t'.id = t.id
  qname : t'.qname = t.qname
  handles : t.handles ⊆ (t' :: apart).flatMap SchemaType.handles
  roots : ∀ r ∈ s.types, r.updateAt t.id (fun _ => t') ∈ s'.types
  indexed : s.Indexed → s'.Indexed
  next : s.nextHandle ≤ s'.nextHandle
  config : s'.config = s.config
  memory : s'.memory = s.memory

namespace Exchanges

variable (hex : Exchanges t t' apart s s')

include hex

theorem updateAt_id (u : SchemaType) : (u.updateAt t.id fun _ => t').id = u.id := by
  by_cases hid : u.id = t.id
  · rw [updateAt_of_eq hid, hex.id, hid]
  · rw [updateAt_of_ne hid, withInner_id]

/-- What is not in the type stays where it is. -/
theorem knows_outside (hs : s.Whole) (ht : s.Knows t) (hu : s.Knows u) (hout : u.id ∉ t.handles) :
    s'.Knows (u.updateAt t.id fun _ => t') := by
  obtain ⟨r, hr, hur⟩ := hu
  refine ⟨_, hex.stock.symm.subset (List.mem_append_left _ (List.mem_map_of_mem hr)), ?_⟩
  obtain hstays | ⟨w, hw, hid, hnested⟩ := hur.updateAt_or_nested (h := t.id) (g := fun _ => t')
  · exact hstays
  · obtain rfl := Knows.eq_of_id hs ⟨r, hr, hw⟩ ht hid
    exact absurd (SchemaType.mem_handles_iff.mpr ⟨u, hnested.within, rfl⟩) hout

theorem knows_inside (hs : s.Whole) (ht : s.Knows t) (hr : r ∈ t' :: apart) (hv : Within v r) :
    s'.Knows v := by
  obtain rfl | hr := List.mem_cons.mp hr
  · obtain ⟨top, htop, hin⟩ := ht
    have hmem := hex.stock.symm.subset (List.mem_append_left _ (List.mem_map_of_mem htop))
    exact ⟨_, hmem, hv.trans (hin.updateAt_target (Knows.nodup_handles hs ⟨top, htop, .self⟩))⟩
  · exact ⟨r, hex.stock.symm.subset (List.mem_append_right _ hr), hv⟩

/-- There is nothing but what stays where it is and what comes with the new type. -/
theorem cases_knows (hs : s.Whole) (ht : s.Knows t) (hv : s'.Knows v) :
    (∃ u, s.Knows u ∧ u.id ∉ t.handles ∧ (u.updateAt t.id fun _ => t') = v) ∨
      ∃ r ∈ t' :: apart, Within v r := by
  have hback := hv
  obtain ⟨top, htop, hin⟩ := hv
  obtain htop | htop := List.mem_append.mp (hex.stock.subset htop)
  · obtain ⟨r, hr, rfl⟩ := List.mem_map.mp htop
    obtain ⟨u, hu, rfl⟩ | ⟨u, hu, hid, c, hc, hvc⟩ := within_of_updateAt hin
    · by_cases hmem : u.id ∈ t.handles
      · -- the type with this handle has come along with the new type
        obtain ⟨x, hx, hmem⟩ := List.mem_flatMap.mp (hex.handles hmem)
        obtain ⟨w, hw, hid⟩ := SchemaType.mem_handles_iff.mp hmem
        have heq := (hex.knows_inside hs ht hx hw).eq_of_id hex.whole hback
          (hid.trans (hex.updateAt_id u).symm)
        exact .inr ⟨x, hx, heq ▸ hw⟩
      · exact .inl ⟨u, ⟨r, hr, hu⟩, hmem, rfl⟩
    · exact .inr ⟨t', List.mem_cons_self, .inner hc hvc⟩
  · exact .inr ⟨top, List.mem_cons_of_mem _ htop, hin⟩

/-- Roots stay roots, under their names. -/
theorem exists_root (hs : s.Whole) (ht : s.Knows t) (hr : r ∈ s.types) :
    ∃ r' ∈ s'.types, r'.id = r.id ∧ r'.qname = r.qname := by
  refine ⟨_, hex.roots r hr, hex.updateAt_id r, ?_⟩
  by_cases hid : r.id = t.id
  · rw [updateAt_of_eq hid, hex.qname, (holds_of_mem_types hr).knows.eq_of_id hs ht hid]
  · rw [updateAt_of_ne hid]
    rfl

end Exchanges

theorem Knows.pending_updateAt_subset (hs : s.Whole) (ht : s.Knows t) (hu : s.Knows u)
    (hsub : t'.pending busy ⊆ t.pending busy) :
    (u.updateAt t.id fun _ => t').pending busy ⊆ u.pending busy := by
  refine SchemaType.pending_updateAt_subset fun w hw hid => ?_
  rwa [(hu.within hw).eq_of_id hs ht hid]

/-- What is not in the type differs from before at most in what is nested in it. -/
theorem exists_updateAt_eq_withInner (hout : u.id ∉ t.handles) :
    ∃ inner, (u.updateAt t.id fun _ => t') = u.withInner inner :=
  ⟨_, updateAt_of_ne fun hid => hout (hid ▸ SchemaType.mem_handles_iff.mpr ⟨t, .self, rfl⟩)⟩

/-- Entries are not nested in anything. -/
theorem Whole.not_nested (hs : s.Whole) (hr : r ∈ s.stock) (hu : s.Knows u) : ¬ Nested r u := by
  rintro hnested
  obtain ⟨top, htop, hin⟩ := hu
  have hwithin := hnested.within.trans hin
  by_cases heq : r = top
  · subst heq
    refine absurd ?_ (not_mem_handles_of_nested (Knows.nodup_handles hs ⟨r, htop, .self⟩)
      (hnested.of_within hin))
    exact SchemaType.mem_handles_iff.mpr ⟨r, .self, rfl⟩
  · have hdisjoint := (List.nodup_flatMap.mp hs.handles.nodup).2
    have : Std.Symm (Function.onFun List.Disjoint SchemaType.handles) := ⟨fun _ _ h _ ha hb => h hb ha⟩
    exact hdisjoint.forall hr htop heq (SchemaType.mem_handles_iff.mpr ⟨r, .self, rfl⟩)
      (SchemaType.mem_handles_iff.mpr ⟨r, hwithin, rfl⟩)

-- ---------------------------------------------------------------------------
-- Changes that exchange types
-- ---------------------------------------------------------------------------

/-- A change of a type, seen as the exchange for what it makes of the type. -/
theorem Whole.update_const (hs : s.Whole) (ht : s.Knows t) (g : SchemaType → SchemaType) :
    s.update t.id (fun _ => g t) = s.update t.id g :=
  update_congr fun _ hu hid => congrArg g (hu.eq_of_id hs ht hid).symm

theorem Whole.stock_update_const (hs : s.Whole) (ht : s.Knows t) (g : SchemaType → SchemaType) :
    (s.update t.id g).stock = s.stock.map (updateAt t.id fun _ => g t) := by
  rw [← hs.update_const ht, stock_update]

theorem Whole.types_update_const (hs : s.Whole) (ht : s.Knows t) (g : SchemaType → SchemaType) :
    (s.update t.id g).types = s.types.map (updateAt t.id fun _ => g t) := by
  rw [← hs.update_const ht, types_update]

theorem Whole.indexed_update (hs : s.Whole) (ht : s.Knows t) (hindexed : s.Indexed)
    (hq : (g t).qname = t.qname) : (s.update t.id g).Indexed := by
  intro q
  refine (hindexed q).trans ?_
  rw [← hs.update_const ht]
  unfold namesakes
  rw [roots_update, List.filter_map, List.map_map]
  refine congrArg (List.map Entry.key) (List.filter_congr fun e he => ?_)
  rw [Function.comp_apply]
  by_cases hid : e.type.id = t.id
  · have hroot : s.Knows e.type := ⟨e.type, List.mem_map_of_mem (List.mem_append_left _ he), .self⟩
    rw [hroot.eq_of_id hs ht hid, updateAt_of_eq rfl, hq]
  · rw [updateAt_of_ne hid]
    rfl

/-- A change that may put new types into a type. -/
theorem Whole.exchanges_update (hs : s.Whole) (ht : s.Knows t) (hid : (g t).id = t.id)
    (hq : (g t).qname = t.qname) (hinner : (g t).inner = t.inner ++ extra)
    (hextra : Numbered (extra.flatMap SchemaType.handles) s.nextHandle next) :
    Exchanges t (g t) [] s ({ s with nextHandle := next }.update t.id g) := by
  -- a change that widens whatever type it is applied to
  let f (u : SchemaType) : SchemaType := { g t with id := u.id, inner := u.inner ++ extra }
  have hf : Widens f extra := ⟨fun _ => rfl, fun _ => rfl⟩
  have hft : f t = g t := by
    simp only [f, ← hid, ← hinner]
    cases g t
    rfl
  have hupdate : { s with nextHandle := next }.update t.id f = { s with nextHandle := next }.update t.id g :=
    update_congr fun u hu hid => by
      obtain rfl := Knows.eq_of_id (s := s) hs hu ht hid
      exact hft
  constructor
  case whole => exact hupdate ▸ hs.update hf ht hextra
  case stock =>
    rw [List.append_nil]
    exact .of_eq (hs.stock_update_const ht g)
  case id => exact hid
  case qname => exact hq
  case handles =>
    rw [List.flatMap_cons, List.flatMap_nil, List.append_nil, handles_eq, handles_eq (g t), hid, hinner,
      List.flatMap_append]
    exact List.cons_subset_cons _ (List.subset_append_left _ _)
  case roots =>
    intro r hr
    have htypes := hs.types_update_const ht g
    exact htypes.symm ▸ List.mem_map_of_mem hr
  case indexed => exact fun hindexed => hs.indexed_update ht hindexed hq
  case next => exact hextra.le
  case config => rfl
  case memory => rfl

/-- The types of a store from which a change has taken some, together with these. -/
theorem Whole.distinct_apart (hs : s.Whole) (ht : s.Knows t)
    (hperm : ((g t).handles ++ apart.flatMap SchemaType.handles).Perm t.handles) :
    Distinct ((s.update t.id g).stock ++ apart) s.nextHandle := by
  obtain ⟨r, hr, htr⟩ := ht
  have hmem : t.id ∈ r.handles := SchemaType.mem_handles_iff.mpr ⟨t, htr, rfl⟩
  have hall := flatMap_handles_updateAt_of_perm hs.handles.nodup hr hmem
    (handles_updateAt_of_perm (Knows.nodup_handles hs ⟨r, hr, .self⟩) htr hperm)
  rw [← stock_update, ← List.flatMap_append] at hall
  exact ⟨hall.nodup_iff.mpr hs.handles.nodup, fun h hh => hs.handles.below h (hall.subset hh)⟩

theorem Whole.keys_update (hs : s.Whole) (h : Handle) (g : SchemaType → SchemaType) :
    ((s.update h g).entries.map (·.key)).Nodup := by
  have hentries : (s.update h g).entries =
      s.entries.map fun e => { e with type := e.type.updateAt h g } := by
    rw [entries, entries, List.map_append]
    rfl
  rw [hentries, List.map_map]
  exact hs.keys

theorem stock_setAside (s : Store) (ts : List SchemaType) : (s.setAside ts).stock = s.stock ++ ts := by
  unfold setAside
  induction ts generalizing s with
  | nil => exact (List.append_nil _).symm
  | cons t ts ih =>
    rw [List.foldl_cons, ih]
    simp [stock, entries, enter]

theorem keys_setAside (hs : s.KeysBelow) (hkeys : (s.entries.map (·.key)).Nodup) (ts : List SchemaType) :
    ((s.setAside ts).entries.map (·.key)).Nodup := by
  unfold setAside
  induction ts generalizing s with
  | nil => exact hkeys
  | cons t ts ih =>
    refine ih (hs.setAside [t]) ?_
    have hentries : (s.enter t).2.entries = s.entries ++ [⟨s.nextKey, t⟩] := by
      simp [entries, enter]
    rw [hentries, List.map_append, List.nodup_append]
    refine ⟨hkeys, List.nodup_singleton _, fun a ha b hb => ?_⟩
    obtain ⟨e, he, rfl⟩ := List.mem_map.mp ha
    rw [List.mem_singleton.mp hb]
    exact Nat.ne_of_lt (hs e he)

/-- A change that takes types out of a type, which are kept aside. -/
theorem Whole.exchanges_setAside (hs : s.Whole) (ht : s.Knows t) (hid : (g t).id = t.id)
    (hq : (g t).qname = t.qname)
    (hperm : ((g t).handles ++ apart.flatMap SchemaType.handles).Perm t.handles) :
    Exchanges t (g t) apart s ((s.update t.id g).setAside apart) := by
  obtain ⟨aside, nextKey, heq, -⟩ := setAside_eq (s.update t.id g) apart
  constructor
  case whole =>
    refine ⟨keys_setAside (hs.keysBelow.update _ _) (hs.keys_update _ _) _,
      (hs.keysBelow.update _ _).setAside _, ?_⟩
    have hdistinct := hs.distinct_apart ht hperm
    rw [← stock_setAside] at hdistinct
    have hnext : ((s.update t.id g).setAside apart).nextHandle = s.nextHandle := by rw [heq, Store.update]
    rwa [hnext]
  case stock => rw [stock_setAside, hs.stock_update_const ht]
  case id => exact hid
  case qname => exact hq
  case handles =>
    rw [List.flatMap_cons]
    exact hperm.symm.subset
  case roots =>
    intro r hr
    have htypes : ((s.update t.id g).setAside apart).types = (s.update t.id g).types := by
      rw [heq, types, types]
    rw [htypes, hs.types_update_const ht]
    exact List.mem_map_of_mem hr
  case indexed =>
    intro hindexed
    rw [heq]
    exact hs.indexed_update ht hindexed hq
  case next =>
    rw [heq]
    exact Int.le_refl _
  case config => exact (congrArg Store.config heq).trans rfl
  case memory => exact (congrArg Store.memory heq).trans rfl

/-- Types that have handles become the last roots. -/
structure Appends (ts : List SchemaType) (s s' : Store) : Prop where
  keys : (s'.entries.map (·.key)).Nodup
  keysBelow : s'.KeysBelow
  stock : s'.stock.Perm (s.stock ++ ts)
  types : s'.types = s.types ++ ts
  indexed : s.Indexed → s'.Indexed
  next : s'.nextHandle = s.nextHandle
  config : s'.config = s.config
  memory : s'.memory = s.memory

theorem appends_insert (hkeys : (s.entries.map (·.key)).Nodup) (hbelow : s.KeysBelow)
    (ht : 0 ∉ t.handles) : Appends [t] s (s.insert t) := by
  have hinsert := hbelow.insert t
  rw [insert_eq hbelow, assignHandles_of_handles ht] at hinsert ⊢
  have hperm : (s.roots ++ [(⟨s.nextKey, t⟩ : Entry)] ++ s.aside).Perm (s.entries ++ [⟨s.nextKey, t⟩]) := by
    rw [entries, List.append_assoc, List.append_assoc]
    exact List.perm_append_comm.append_left _
  constructor
  case keys =>
    refine (hperm.map (·.key)).nodup_iff.mpr ?_
    rw [List.map_append, List.nodup_append]
    refine ⟨hkeys, List.nodup_singleton _, fun k hk k' hk' => ?_⟩
    obtain ⟨e, he, rfl⟩ := List.mem_map.mp hk
    rw [List.mem_singleton.mp hk']
    exact Nat.ne_of_lt (hbelow e he)
  case keysBelow => exact hinsert
  case stock =>
    refine (hperm.map (·.type)).trans ?_
    rw [List.map_append]
    exact .refl _
  case types => exact List.map_append
  case indexed => exact fun hindexed => hindexed.append (e := ⟨s.nextKey, t⟩) rfl rfl
  case next => rfl
  case config => rfl
  case memory => rfl

theorem appends_insertAll (hkeys : (s.entries.map (·.key)).Nodup) (hbelow : s.KeysBelow)
    (ts : List SchemaType) (hts : ∀ t ∈ ts, 0 ∉ t.handles) : Appends ts s (s.insertAll ts) := by
  induction ts generalizing s with
  | nil => exact ⟨hkeys, hbelow, by simp [insertAll], by simp [insertAll], id, rfl, rfl, rfl⟩
  | cons t ts ih =>
    obtain ⟨ht, hts⟩ := List.forall_mem_cons.mp hts
    have hfirst := appends_insert hkeys hbelow ht
    have hrest := ih hfirst.keys hfirst.keysBelow hts
    rw [insertAll, List.foldl_cons, ← insertAll]
    constructor
    case keys => exact hrest.keys
    case keysBelow => exact hrest.keysBelow
    case stock =>
      refine hrest.stock.trans ((hfirst.stock.append_right _).trans ?_)
      rw [List.append_assoc, List.singleton_append]
    case types => rw [hrest.types, hfirst.types, List.append_assoc, List.singleton_append]
    case indexed => exact fun hindexed => hrest.indexed (hfirst.indexed hindexed)
    case next => exact hrest.next.trans hfirst.next
    case config => exact hrest.config.trans hfirst.config
    case memory => exact hrest.memory.trans hfirst.memory

/-- A change that takes types out of a type, which become roots. -/
theorem Whole.exchanges_insertAll (hs : s.Whole) (ht : s.Knows t) (hid : (g t).id = t.id)
    (hq : (g t).qname = t.qname)
    (hperm : ((g t).handles ++ apart.flatMap SchemaType.handles).Perm t.handles)
    (hapart : ∀ u ∈ apart, 0 ∉ u.handles) :
    Exchanges t (g t) apart s ((s.update t.id g).insertAll apart) ∧
      ∀ u ∈ apart, u ∈ ((s.update t.id g).insertAll apart).types := by
  have happends := appends_insertAll (hs.keys_update t.id g) (hs.keysBelow.update t.id g) apart hapart
  refine ⟨?_, fun u hu => happends.types ▸ List.mem_append_right _ hu⟩
  constructor
  case whole =>
    refine ⟨happends.keys, happends.keysBelow, ?_⟩
    have hdistinct := hs.distinct_apart ht hperm
    have hhandles := happends.stock.flatMap_right SchemaType.handles
    rw [happends.next]
    exact ⟨hhandles.nodup_iff.mpr hdistinct.nodup, fun h hh => hdistinct.below h (hhandles.subset hh)⟩
  case stock => exact hs.stock_update_const ht g ▸ happends.stock
  case id => exact hid
  case qname => exact hq
  case handles =>
    rw [List.flatMap_cons]
    exact hperm.symm.subset
  case roots =>
    intro r hr
    rw [happends.types, hs.types_update_const ht]
    exact List.mem_append_left _ (List.mem_map_of_mem hr)
  case indexed => exact fun hindexed => happends.indexed (hs.indexed_update ht hindexed hq)
  case next => exact Int.le_of_eq happends.next.symm
  case config => exact happends.config
  case memory => exact happends.memory

end Store

end Schemata
