import Mathlib.Data.List.Perm.Basic
import Schemata.Proofs.Model.Changes

/-!
# Changes at one type

What a tree holds after the type with a handle has been changed, when the change may add inner types
to it: the types that were there, each with the change in its tree, and the added ones. `pending`
lists the handles of a tree whose types a step has not begun.
-/

namespace Schemata.SchemaType

variable {t u v : SchemaType} {h : Handle} {g : SchemaType → SchemaType} {extra : List SchemaType}
  {busy : Status}

/-- A change of a type that keeps its handle and adds inner types after those that it has. -/
structure Widens (g : SchemaType → SchemaType) (extra : List SchemaType) : Prop where
  id : ∀ t, (g t).id = t.id
  inner : ∀ t, (g t).inner = t.inner ++ extra

/-- A change of a type that keeps what it is and adds inner types after those that it has. -/
structure Extends (g : SchemaType → SchemaType) (extra : List SchemaType) : Prop where
  id : ∀ t, (g t).id = t.id
  qname : ∀ t, (g t).qname = t.qname
  tag : ∀ t, (g t).tag = t.tag
  inner : ∀ t, (g t).inner = t.inner ++ extra

theorem Extends.widens (hg : Extends g extra) : Widens g extra :=
  ⟨hg.id, hg.inner⟩

theorem updateAt_of_eq (hid : t.id = h) : t.updateAt h g = g t := by
  rw [updateAt_eq, if_pos hid]

theorem updateAt_of_ne (hid : t.id ≠ h) :
    t.updateAt h g = t.withInner (t.inner.map (updateAt h g)) := by
  rw [updateAt_eq, if_neg hid]

/-- What is read off a type without its inner types, and kept by a change, is as it was after the
change of one type. -/
theorem read_updateAt {α : Type} (read : SchemaType → α) (hg : ∀ t, read (g t) = read t)
    (hinner : ∀ t inner, read (t.withInner inner) = read t) (t : SchemaType) :
    read (t.updateAt h g) = read t := by
  by_cases hid : t.id = h
  · rw [updateAt_of_eq hid, hg]
  · rw [updateAt_of_ne hid, hinner]

theorem updateAt_congr {f : SchemaType → SchemaType} (hfg : ∀ u, Within u t → u.id = h → f u = g u) :
    t.updateAt h f = t.updateAt h g := by
  induction t using induct with
  | type t ih =>
    rw [updateAt_eq, updateAt_eq]
    split
    case isTrue hid => exact hfg t .self hid
    case isFalse =>
      refine congrArg t.withInner (List.map_congr_left fun c hc => ih c hc fun u hu => ?_)
      exact hfg u (.inner hc hu)

/-- What is in a changed tree was in it, or the change has put it below its target. -/
theorem within_of_updateAt (hv : Within v (t.updateAt h g)) :
    (∃ u, Within u t ∧ u.updateAt h g = v) ∨
      ∃ u, Within u t ∧ u.id = h ∧ ∃ c ∈ (g u).inner, Within v c := by
  induction t using induct with
  | type t ih =>
    generalize hw : t.updateAt h g = w at hv
    cases hv with
    | self => exact .inl ⟨t, .self, hw⟩
    | @inner _ c hc hv =>
      rw [← hw] at hc
      by_cases hid : t.id = h
      · rw [updateAt_of_eq hid] at hc
        exact .inr ⟨t, .self, hid, c, hc, hv⟩
      · rw [updateAt_of_ne hid, withInner_inner] at hc
        obtain ⟨d, hd, rfl⟩ := List.mem_map.mp hc
        obtain ⟨u, hu, heq⟩ | ⟨u, hu, hbelow⟩ := ih d hd hv
        · exact .inl ⟨u, .inner hd hu, heq⟩
        · exact .inr ⟨u, .inner hd hu, hbelow⟩

namespace Widens

theorem updateAt_id (hg : Widens g extra) (t : SchemaType) : (t.updateAt h g).id = t.id :=
  read_updateAt (·.id) hg.id (fun _ _ => rfl) t

/-- What was in a tree is there, with the change. -/
theorem within_updateAt (hg : Widens g extra) (ht : t.handles.Nodup) (hu : Within u t) :
    Within (u.updateAt h g) (t.updateAt h g) := by
  induction hu with
  | self => exact .self
  | @inner t c hc hu ih =>
    by_cases hid : t.id = h
    · -- below the target nothing changes
      have hnot : h ∉ u.handles := fun hmem =>
        not_mem_handles_inner ht hc (hid ▸ hu.handles_subset hmem)
      rw [updateAt_of_eq hid, updateAt_of_not_mem hnot]
      exact .inner (hg.inner t ▸ List.mem_append_left _ hc) hu
    · rw [updateAt_of_ne hid]
      exact .inner (List.mem_map_of_mem hc) (ih (nodup_handles_inner ht hc))

/-- What is nested in a changed type was nested in it or has been added. -/
theorem nested_of_updateAt (hg : Widens g extra) (ht : t.handles.Nodup) {c : SchemaType}
    (hc : c ∈ (t.updateAt h g).inner) (hv : Within v c) :
    (∃ d ∈ t.inner, ∃ u, Within u d ∧ u.updateAt h g = v) ∨ ∃ x ∈ extra, Within v x := by
  induction t using induct generalizing c with
  | type t ih =>
    by_cases hid : t.id = h
    · rw [updateAt_of_eq hid, hg.inner] at hc
      obtain hc | hc := List.mem_append.mp hc
      · -- below the target nothing changes
        have hnot : h ∉ v.handles := fun hmem =>
          not_mem_handles_inner ht hc (hid ▸ hv.handles_subset hmem)
        exact .inl ⟨c, hc, v, hv, updateAt_of_not_mem hnot⟩
      · exact .inr ⟨c, hc, hv⟩
    · rw [updateAt_of_ne hid, withInner_inner] at hc
      obtain ⟨d, hd, rfl⟩ := List.mem_map.mp hc
      generalize hw : d.updateAt h g = w at hv
      cases hv with
      | self => exact .inl ⟨d, hd, d, .self, hw⟩
      | inner hc' hv =>
        rw [← hw] at hc'
        obtain ⟨d', hd', u, hu, heq⟩ | hextra := ih d hd (nodup_handles_inner ht hd) hc' hv
        · exact .inl ⟨d, hd, u, .inner hd' hu, heq⟩
        · exact .inr hextra

/-- What is in a changed tree was there or has been added. -/
theorem within_of_updateAt (hg : Widens g extra) (ht : t.handles.Nodup)
    (hv : Within v (t.updateAt h g)) :
    (∃ u, Within u t ∧ u.updateAt h g = v) ∨ ∃ x ∈ extra, Within v x := by
  generalize hw : t.updateAt h g = w at hv
  cases hv with
  | self => exact .inl ⟨t, .self, hw⟩
  | inner hc hv =>
    rw [← hw] at hc
    obtain ⟨d, hd, u, hu, heq⟩ | hextra := hg.nested_of_updateAt ht hc hv
    · exact .inl ⟨u, .inner hd hu, heq⟩
    · exact .inr hextra

end Widens

namespace Extends

theorem updateAt_qname (hg : Extends g extra) (t : SchemaType) : (t.updateAt h g).qname = t.qname :=
  read_updateAt (·.qname) hg.qname (fun _ _ => rfl) t

theorem updateAt_tag (hg : Extends g extra) (t : SchemaType) : (t.updateAt h g).tag = t.tag :=
  read_updateAt (·.tag) hg.tag (fun _ _ => rfl) t

end Extends

theorem map_updateAt_of_not_mem {ts : List SchemaType} (hh : h ∉ ts.flatMap handles) :
    ts.map (updateAt h g) = ts := by
  refine (List.map_congr_left fun t ht => updateAt_of_not_mem fun hmem => ?_).trans (List.map_id _)
  exact hh (List.mem_flatMap.mpr ⟨t, ht, hmem⟩)

/-- A change at one of several trees adds its handles once. -/
theorem flatMap_handles_updateAt_perm {ts : List SchemaType} (hts : (ts.flatMap handles).Nodup)
    (hh : h ∈ ts.flatMap handles)
    (htree : ∀ t ∈ ts, t.handles.Nodup → h ∈ t.handles →
      (t.updateAt h g).handles.Perm (t.handles ++ extra.flatMap handles)) :
    ((ts.map (updateAt h g)).flatMap handles).Perm (ts.flatMap handles ++ extra.flatMap handles) := by
  induction ts with
  | nil => simp at hh
  | cons t ts ih =>
    rw [List.flatMap_cons, List.nodup_append'] at hts
    obtain ⟨hnodup, hrest, hdisjoint⟩ := hts
    rw [List.map_cons, List.flatMap_cons, List.flatMap_cons]
    by_cases hmem : h ∈ t.handles
    · rw [map_updateAt_of_not_mem fun hts => hdisjoint hmem hts]
      have hperm := htree t List.mem_cons_self hnodup hmem
      refine (hperm.append_right _).trans ?_
      rw [List.append_assoc, List.append_assoc]
      exact (List.perm_append_comm).append_left _
    · rw [updateAt_of_not_mem hmem, List.append_assoc]
      rw [List.flatMap_cons, List.mem_append] at hh
      exact (ih hrest (hh.resolve_left hmem) fun u hu =>
        htree u (List.mem_cons_of_mem _ hu)).append_left _

theorem Widens.handles_updateAt_perm (hg : Widens g extra) (ht : t.handles.Nodup)
    (hh : h ∈ t.handles) : (t.updateAt h g).handles.Perm (t.handles ++ extra.flatMap handles) := by
  induction t using induct with
  | type t ih =>
    by_cases hid : t.id = h
    · rw [updateAt_of_eq hid, handles_eq, handles_eq, hg.id, hg.inner, List.flatMap_append]
      rfl
    · rw [updateAt_of_ne hid, handles_eq, handles_eq, withInner_id, withInner_inner]
      rw [handles_eq, List.nodup_cons] at ht
      rw [handles_eq] at hh
      have hinner := (List.mem_cons.mp hh).resolve_left (Ne.symm hid)
      exact (flatMap_handles_updateAt_perm ht.2 hinner fun u hu => ih u hu).cons _

theorem Widens.handles_subset_updateAt (hg : Widens g extra) (ht : t.handles.Nodup) :
    t.handles ⊆ (t.updateAt h g).handles := by
  by_cases hmem : h ∈ t.handles
  · exact List.Subset.trans (List.subset_append_left _ _) (hg.handles_updateAt_perm ht hmem).symm.subset
  · rw [updateAt_of_not_mem hmem]
    exact List.Subset.refl _

/-- What is taken out of one of several trees takes its handles along. -/
theorem flatMap_handles_updateAt_of_perm {ts lost : List SchemaType} {c : SchemaType}
    (hts : (ts.flatMap handles).Nodup) (hc : c ∈ ts) (hmem : h ∈ c.handles)
    (hperm : ((c.updateAt h g).handles ++ lost.flatMap handles).Perm c.handles) :
    ((ts.map (updateAt h g)).flatMap handles ++ lost.flatMap handles).Perm
      (ts.flatMap handles) := by
  obtain ⟨before, after, rfl⟩ := List.append_of_mem hc
  rw [List.flatMap_append, List.flatMap_cons] at hts ⊢
  obtain ⟨-, hrest, hdisjoint⟩ := List.nodup_append'.mp hts
  obtain ⟨-, -, hdisjoint'⟩ := List.nodup_append'.mp hrest
  -- the handle is in none of the other trees
  have hbefore : h ∉ before.flatMap handles := fun hmem' => hdisjoint hmem' (List.mem_append_left _ hmem)
  have hafter : h ∉ after.flatMap handles := fun hmem' => hdisjoint' hmem hmem'
  rw [List.map_append, List.map_cons, map_updateAt_of_not_mem hbefore, map_updateAt_of_not_mem hafter,
    List.flatMap_append, List.flatMap_cons, List.append_assoc, List.append_assoc]
  refine List.Perm.append_left _ ((List.perm_append_comm.append_left _).trans ?_)
  rw [← List.append_assoc]
  exact hperm.append_right _

/-- What a change takes out of a tree takes its handles along. -/
theorem handles_updateAt_of_perm {lost : List SchemaType} (ht : t.handles.Nodup) (hu : Within u t)
    (hg : ((g u).handles ++ lost.flatMap handles).Perm u.handles) :
    ((t.updateAt u.id g).handles ++ lost.flatMap handles).Perm t.handles := by
  induction hu with
  | self => rwa [updateAt_of_eq rfl]
  | @inner t c hc hu ih =>
    have hmem : u.id ∈ c.handles := mem_handles_iff.mpr ⟨u, hu, rfl⟩
    have hne : t.id ≠ u.id := fun hid => not_mem_handles_inner ht hc (hid ▸ hmem)
    have hinner : (t.inner.flatMap handles).Nodup := (List.nodup_cons.mp (handles_eq t ▸ ht)).2
    rw [updateAt_of_ne hne, handles_eq, handles_eq t, withInner_id, withInner_inner, List.cons_append]
    exact .cons _ (flatMap_handles_updateAt_of_perm hinner hc hmem (ih (nodup_handles_inner ht hc)))

/-- The type is nested in another, at any depth. -/
def Nested (v t : SchemaType) : Prop :=
  ∃ c ∈ t.inner, Within v c

theorem mem_walkAll_inner_iff : v ∈ walkAll t.inner ↔ Nested v t :=
  mem_walkAll_iff

theorem Nested.within (hv : Nested v t) : Within v t := by
  obtain ⟨c, hc, hv⟩ := hv
  exact .inner hc hv

/-- What is nested in a type that is nested in another. -/
theorem Nested.of_within (hv : Nested v u) (hu : Within u t) : Nested v t := by
  cases hu with
  | self => exact hv
  | inner hc hu => exact ⟨_, hc, hv.within.trans hu⟩

theorem not_mem_handles_of_nested (ht : t.handles.Nodup) (hv : Nested v t) : t.id ∉ v.handles := by
  obtain ⟨c, hc, hv⟩ := hv
  exact fun hmem => not_mem_handles_inner ht hc (hv.handles_subset hmem)

/-- The handles of the types of a tree that are not begun. -/
def pending (busy : Status) (t : SchemaType) : List Handle :=
  (t.walk.filter (·.status < busy)).map (·.id)

theorem pending_eq (t : SchemaType) : t.pending busy =
    (if t.status < busy then [t.id] else []) ++ t.inner.flatMap (pending busy) := by
  unfold pending
  rw [walk_eq, walkAll_eq_flatMap, List.filter_cons, List.filter_flatMap]
  split
  case isTrue hlt =>
    rw [if_pos (of_decide_eq_true hlt), List.map_cons, List.map_flatMap]
    rfl
  case isFalse hlt =>
    rw [if_neg fun hlt' => hlt (decide_eq_true hlt'), List.map_flatMap]
    rfl

theorem mem_pending_iff : h ∈ t.pending busy ↔ ∃ u, Within u t ∧ u.status < busy ∧ u.id = h := by
  simp only [pending, List.mem_map, List.mem_filter, mem_walk_iff, decide_eq_true_eq, and_assoc]

theorem pending_sublist_handles (t : SchemaType) : (t.pending busy).Sublist t.handles :=
  List.filter_sublist.map _

theorem pending_eq_nil_iff : t.pending busy = [] ↔ ∀ u, Within u t → ¬ u.status < busy := by
  rw [List.eq_nil_iff_forall_not_mem]
  simp only [mem_pending_iff]
  constructor
  · exact fun hnone u hu hlt => hnone u.id ⟨u, hu, hlt, rfl⟩
  · rintro hnone _ ⟨u, hu, hlt, rfl⟩
    exact hnone u hu hlt

/-- A type in which no more is pending than in another one with its handle has begun inner types, when
what was pending in those of the other one is not. -/
theorem inner_begun_of_pending (hid : u.id = t.id) (hnodup : u.handles.Nodup)
    (hsub : u.pending busy ⊆ t.pending busy)
    (hinner : ∀ h ∈ t.inner.flatMap (pending busy), h ∉ u.pending busy) :
    ∀ c ∈ u.inner, c.pending busy = [] := by
  intro c hc
  refine List.eq_nil_iff_forall_not_mem.mpr fun h hh => ?_
  have hpending : h ∈ u.pending busy := by
    rw [pending_eq]
    exact List.mem_append_right _ (List.mem_flatMap.mpr ⟨c, hc, hh⟩)
  have hold := hsub hpending
  rw [pending_eq t] at hold
  obtain hself | hold := List.mem_append.mp hold
  · -- no type has its own handle in it
    have heq : h = u.id := by
      rw [hid]
      split at hself
      · exact List.mem_singleton.mp hself
      · exact absurd hself List.not_mem_nil
    exact not_mem_handles_inner hnodup hc (heq ▸ (pending_sublist_handles c).subset hh)
  · exact hinner h hold hpending

/-- A change that begins a type or leaves it begun, and adds only begun types, begins no other. -/
theorem Widens.pending_updateAt_sublist (hg : Widens g extra)
    (hstatus : ∀ t, t.id = h → (g t).status < busy → t.status < busy)
    (hextra : extra.flatMap (pending busy) = []) (t : SchemaType) :
    ((t.updateAt h g).pending busy).Sublist (t.pending busy) := by
  induction t using induct with
  | type t ih =>
    rw [pending_eq (t.updateAt h g), pending_eq t]
    by_cases hid : t.id = h
    · rw [updateAt_of_eq hid, hg.id, hg.inner, List.flatMap_append, hextra, List.append_nil]
      refine List.Sublist.append_right ?_ _
      by_cases hlt : (g t).status < busy
      · rw [if_pos hlt, if_pos (hstatus t hid hlt)]
      · rw [if_neg hlt]
        exact List.nil_sublist _
    · rw [updateAt_of_ne hid, withInner_inner, withInner_id]
      refine List.Sublist.append_left ?_ _
      generalize t.inner = inner at ih
      induction inner with
      | nil => exact List.nil_sublist _
      | cons c inner ihs =>
        rw [List.map_cons, List.flatMap_cons, List.flatMap_cons]
        exact (ih c List.mem_cons_self).append
          (ihs fun u hu => ih u (List.mem_cons_of_mem _ hu))

end Schemata.SchemaType
