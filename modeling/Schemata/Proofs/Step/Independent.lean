import Schemata.Proofs.Step.WeakestPre
import Schemata.Proofs.Store.Index

/-!
# Steps over independent types

A step that changes every type by what the type holds itself. `Reached s F D s'` says how far such a
step has come from `s`: the types with handles in `D` are changed by `F`, the others are as they were.
One round over a tree reaches all of the tree, and one sweep all roots, so the second round and the
second sweep find nothing left.
-/

namespace Schemata

open Compile SchemaType

variable {s s' : Store} {F : SchemaType → SchemaType} {D : List Handle} {u : SchemaType} {h : Handle}
  {busy : Status} {apply : Handle → Compile Unit}

/-- Changes the types with the given handles. -/
def upTo (D : List Handle) (F : SchemaType → SchemaType) (u : SchemaType) : SchemaType :=
  if u.id ∈ D then F u else u

theorem shallow_upTo (hF : Shallow F) (D : List Handle) : Shallow (upTo D F) where
  id t := by
    unfold upTo
    split
    · exact hF.id t
    · rfl
  withInner t inner := by
    unfold upTo
    rw [withInner_id]
    split
    · exact hF.withInner t inner
    · rfl

/-- A type is changed once, unless a second change makes no difference. -/
theorem upTo_cons (hF : Shallow F) (hh : h ∉ D ∨ ∀ t, F (F t) = F t) :
    (fun u : SchemaType => if u.id = h then F u else u) ∘ upTo D F = upTo (h :: D) F := by
  funext u
  rw [Function.comp_apply, (shallow_upTo hF D).id]
  unfold upTo
  by_cases hid : u.id = h
  · by_cases hD : h ∈ D
    · simp [hid, hD, hh.resolve_left (not_not_intro hD)]
    · simp [hid, hD]
  · simp [hid]

structure Reached (s : Store) (F : SchemaType → SchemaType) (D : List Handle) (s' : Store) :
    Prop where
  roots : s'.roots = s.roots.map fun e => { e with type := e.type.mapTree (upTo D F) }
  memory : s'.memory = s.memory

namespace Reached

theorem start (s : Store) (F : SchemaType → SchemaType) : Reached s F [] s where
  roots := by
    have hid : ∀ t : SchemaType, t.mapTree (upTo [] F) = t := fun t =>
      mapTree_of_forall_eq fun u _ => if_neg List.not_mem_nil
    simp [hid]
  memory := rfl

theorem types (hr : Reached s F D s') : s'.types = s.types.map (mapTree (upTo D F)) := by
  simp [Store.types, hr.roots, Function.comp_def]

theorem handles (hF : Shallow F) (hr : Reached s F D s') : s'.handles = s.handles :=
  Store.handles_of_mapTree (shallow_upTo hF D) hr.types

theorem holds (hF : Shallow F) (hr : Reached s F D s') (hu : s.Holds u) :
    s'.Holds (u.mapTree (upTo D F)) :=
  (Store.holds_iff_of_mapTree (shallow_upTo hF D) hr.types).mpr ⟨u, hu, rfl⟩

theorem get? (hF : Shallow F) (hs : s.handles.Nodup) (hr : Reached s F D s') (hu : s.Holds u) :
    s'.get? u.id = some (u.mapTree (upTo D F)) := by
  rw [← (shallow_upTo hF D).mapTree_id u]
  exact Store.get?_of_holds (hr.handles hF ▸ hs) (hr.holds hF hu)

theorem update (hF : Shallow F) (hs : s.handles.Nodup) (hr : Reached s F D s')
    (hh : h ∉ D ∨ ∀ t, F (F t) = F t) : Reached s F (h :: D) (s'.update h F) where
  roots := by
    rw [Store.update, hr.roots, List.map_map]
    refine List.map_congr_left fun e he => ?_
    have hnodup : (e.type.mapTree (upTo D F)).handles.Nodup := by
      rw [(shallow_upTo hF D).handles_mapTree]
      exact Store.nodup_handles_of_mem hs (List.mem_map_of_mem he)
    simp only [Function.comp_apply]
    rw [updateAt_eq_mapTree hnodup, (shallow_upTo hF D).mapTree_mapTree, upTo_cons hF hh]
  memory := hr.memory

end Reached

/-- Working on a type means changing it by `F`. No type of the store is begun, and every changed one
is done. -/
structure Independent (busy : Status) (F : SchemaType → SchemaType) (s : Store)
    (apply : Handle → Compile Unit) : Prop where
  handles : s.handles.Nodup
  shallow : Shallow F
  pending : ∀ u, s.Holds u → u.status < busy
  done : ∀ u, ¬ (F u).status < busy
  apply : ∀ {s' h Q}, s'.memory = s.memory → Q () (s'.update h F) →
    wp (apply h) Q (fun _ _ => False) s'

namespace Independent

/-- What is left to do is what has not been reached. -/
theorem status_lt_iff (hi : Independent busy F s apply) (hu : s.Holds u) :
    (u.mapTree (upTo D F)).status < busy ↔ u.id ∉ D := by
  have hstatus : (u.mapTree (upTo D F)).status = (upTo D F u).status := by
    rw [(shallow_upTo hi.shallow D).mapTree_eq_withInner]
    rfl
  rw [hstatus, upTo]
  split
  case isTrue hD => exact iff_of_false (hi.done u) (not_not_intro hD)
  case isFalse hD => exact iff_of_true (hi.pending u hu) hD

theorem applyPending (hi : Independent busy F s apply) (hs : List Handle)
    (hheld : ∀ h ∈ hs, h ∈ s.handles) (hr : Reached s F D s') :
    wp (applyPending busy apply hs)
      (fun _ s'' => ∃ D', Reached s F D' s'' ∧ D ⊆ D' ∧ hs ⊆ D') (fun _ _ => False) s' := by
  induction hs generalizing D s' with
  | nil =>
    rw [Schemata.applyPending, wp_pure]
    exact ⟨D, hr, List.Subset.refl D, List.nil_subset D⟩
  | cons h hs ih =>
    obtain ⟨u, hu, rfl⟩ := Store.mem_handles_iff.mp (hheld h List.mem_cons_self)
    have hheld : ∀ h ∈ hs, h ∈ s.handles := fun h hh => hheld h (List.mem_cons_of_mem _ hh)
    rw [Schemata.applyPending, wp_bind, wp_typeOf (hr.get? hi.shallow hi.handles hu)]
    dsimp only
    split
    case isTrue hlt =>
      have hnew := (hi.status_lt_iff hu).mp hlt
      rw [wp_bind]
      refine hi.apply hr.memory (wp_mono (ih hheld (hr.update hi.shallow hi.handles (.inl hnew))) ?_ ?_)
      · rintro _ s'' ⟨D', hr', hD, hhs⟩
        refine ⟨D', hr', List.Subset.trans (List.subset_cons_self _ _) hD, ?_⟩
        exact List.cons_subset.mpr ⟨hD List.mem_cons_self, hhs⟩
      · exact fun _ _ hfalse => hfalse
    case isFalse hlt =>
      have hold : u.id ∈ D := by
        by_contra hnew
        exact hlt ((hi.status_lt_iff hu).mpr hnew)
      refine wp_mono (ih hheld hr) ?_ fun _ _ hfalse => hfalse
      rintro _ s'' ⟨D', hr', hD, hhs⟩
      exact ⟨D', hr', hD, List.cons_subset.mpr ⟨hD hold, hhs⟩⟩

theorem mem_pending_iff (hi : Independent busy F s apply) (hu : s.Holds u) :
    h ∈ (u.mapTree (upTo D F)).pending busy ↔ h ∈ u.handles ∧ h ∉ D := by
  have hshallow := shallow_upTo hi.shallow D
  simp only [SchemaType.mem_pending_iff, SchemaType.mem_handles_iff, hshallow.within_mapTree_iff]
  constructor
  · rintro ⟨_, ⟨v, hv, rfl⟩, hlt, rfl⟩
    rw [hi.status_lt_iff (hu.within hv)] at hlt
    rw [hshallow.mapTree_id]
    exact ⟨⟨v, hv, rfl⟩, hlt⟩
  · rintro ⟨⟨v, hv, rfl⟩, hnew⟩
    have hlt := (hi.status_lt_iff (hu.within hv)).mpr hnew
    exact ⟨_, ⟨v, hv, rfl⟩, hlt, hshallow.mapTree_id v⟩

theorem applyTree (hi : Independent busy F s apply) (hu : s.Holds u) (hr : Reached s F D s')
    (rounds : Nat) :
    wp (applyTree busy apply u.id (rounds + 2))
      (fun _ s'' => ∃ D', Reached s F D' s'' ∧ D ⊆ D' ∧ u.handles ⊆ D') (fun _ _ => False) s' := by
  have hstop : ∀ {D s'} n, Reached s F D s' → u.handles ⊆ D →
      wp (Schemata.applyTree busy apply u.id (n + 1)) (fun _ s'' => s'' = s') (fun _ _ => False) s' := by
    intro D s' n hr hD
    have hnil : (u.mapTree (upTo D F)).pending busy = [] :=
      List.eq_nil_iff_forall_not_mem.mpr fun h hh =>
        ((hi.mem_pending_iff hu).mp hh).2 (hD ((hi.mem_pending_iff hu).mp hh).1)
    rw [applyTree_succ, wp_bind, wp_typeOf (hr.get? hi.shallow hi.handles hu), hnil,
      if_pos List.isEmpty_nil, wp_pure]
  by_cases hD : u.handles ⊆ D
  · refine wp_mono (hstop (rounds + 1) hr hD) ?_ fun _ _ hfalse => hfalse
    rintro _ _ rfl
    exact ⟨D, hr, List.Subset.refl D, hD⟩
  · rw [applyTree_succ, wp_bind, wp_typeOf (hr.get? hi.shallow hi.handles hu)]
    obtain ⟨h, hh, hnew⟩ : ∃ h ∈ u.handles, h ∉ D := by
      simpa [List.subset_def] using hD
    have hpending := (hi.mem_pending_iff hu).mpr ⟨hh, hnew⟩
    rw [if_neg (by simpa using List.ne_nil_of_mem hpending), wp_bind]
    refine wp_mono (hi.applyPending _ (fun h hh => ?_) hr) ?_ fun _ _ hfalse => hfalse
    · have hmem := ((hi.mem_pending_iff hu).mp (List.mem_reverse.mp hh)).1
      obtain ⟨v, hv, rfl⟩ := mem_handles_iff.mp hmem
      exact Store.mem_handles_iff.mpr ⟨v, hu.within hv, rfl⟩
    · -- the second round finds nothing left
      rintro _ s'' ⟨D', hr', hDD', hhs⟩
      have hall : u.handles ⊆ D' := fun h hh => by
        by_cases hD : h ∈ D
        · exact hDD' hD
        · exact hhs (List.mem_reverse.mpr ((hi.mem_pending_iff hu).mpr ⟨hh, hD⟩))
      refine wp_mono (hstop rounds hr' hall) ?_ fun _ _ hfalse => hfalse
      rintro _ _ rfl
      exact ⟨D', hr', hDD', hall⟩

theorem sweepRoots {step : Step} (hparallel : step.parallel = true) {n : Nat}
    (hi : Independent step.busy F s (step.apply (n + 2) .plain))
    (hkeys : (s.roots.map (·.key)).Nodup) (es : List Entry) (hes : es ⊆ s.roots)
    (hr : Reached s F D s') :
    wp (step.sweepRoots (n + 2) (es.map (·.key)))
      (fun _ s'' => ∃ D', Reached s F D' s'' ∧ D ⊆ D' ∧ ∀ e ∈ es, e.type.handles ⊆ D')
      (fun _ _ => False) s' := by
  induction es generalizing D s' with
  | nil =>
    rw [List.map_nil, Step.sweepRoots, wp_pure]
    exact ⟨D, hr, List.Subset.refl D, fun _ he => absurd he List.not_mem_nil⟩
  | cons e es ih =>
    obtain ⟨he, hes⟩ := List.cons_subset.mp hes
    have hu : s.Holds e.type := Store.holds_of_mem_types (List.mem_map_of_mem he)
    have hkey : s'.typeOfKey? e.key = some (e.type.mapTree (upTo D F)) := by
      have hkeys' : (s'.roots.map (·.key)).Nodup := by
        simpa [hr.roots, Function.comp_def] using hkeys
      let e' : Entry := { e with type := e.type.mapTree (upTo D F) }
      have he' : e' ∈ s'.roots := by
        rw [hr.roots]
        exact List.mem_map.mpr ⟨e, he, rfl⟩
      exact Store.typeOfKey?_of_mem hkeys' he'
    rw [List.map_cons, Step.sweepRoots, wp_bind, wp_get]
    dsimp only
    rw [hkey]
    simp only [hparallel, Bool.true_or, if_true, wp_bind, wp_get]
    rw [Step.processTree, hparallel, if_pos rfl, (shallow_upTo hi.shallow D).mapTree_id]
    refine wp_mono (hi.applyTree hu hr n) ?_ fun _ _ hfalse => hfalse
    rintro _ _ ⟨D', hr', hD, hall⟩
    refine wp_mono (ih hes hr') ?_ fun _ _ hfalse => hfalse
    rintro _ _ ⟨D'', hr'', hD', hall'⟩
    refine ⟨D'', hr'', List.Subset.trans hD hD', fun e' he' => ?_⟩
    obtain rfl | he' := List.mem_cons.mp he'
    · exact List.Subset.trans hall hD'
    · exact hall' e' he'

end Independent

/-- When all handles of the roots are reached, all types are changed. -/
theorem Reached.types_of_all (hr : Reached s F D s') (hall : ∀ e ∈ s.roots, e.type.handles ⊆ D) :
    s'.types = s.types.map (mapTree F) := by
  rw [hr.types]
  refine List.map_congr_left fun t ht => mapTree_congr fun u hu => if_pos ?_
  obtain ⟨e, he, rfl⟩ := List.mem_map.mp ht
  exact hall e he hu

end Schemata
