import Schemata.Proofs.Step.Upkeep
import Schemata.Proofs.Store.Whole

/-!
# Trees from the inside out

A step begins a type after what is nested in it. When nothing that is not begun comes into a type from
elsewhere, all that is nested in a type has been begun by the time that the type is worked on, whatever
types look-ups lead to in between and wherever in the store the type is by then.
-/

namespace Schemata

open Compile SchemaType

variable {busy : Status} {s s' s₀ : Store} {t : SchemaType} {h : Handle}

/-- The type with the handle is not begun. -/
def Store.Pends (busy : Status) (s : Store) (h : Handle) : Prop :=
  ∃ u, s.Knows u ∧ u.status < busy ∧ u.id = h

theorem Store.Knows.pends_iff (hs : s.Whole) (ht : s.Knows t) : s.Pends busy t.id ↔ t.status < busy := by
  constructor
  · rintro ⟨u, hu, hlt, hid⟩
    rwa [← hu.eq_of_id hs ht hid]
  · exact fun hlt => ⟨t, ht, hlt, rfl⟩

theorem Store.Knows.pends_of_mem (ht : s.Knows t) (hh : h ∈ t.pending busy) : s.Pends busy h := by
  obtain ⟨u, hu, hlt, rfl⟩ := SchemaType.mem_pending_iff.mp hh
  exact ⟨u, ht.within hu, hlt, rfl⟩

namespace Upkeep

variable {U : Upkeep} {work : Handle → Compile Unit}

/-- Handles tell types apart, and what is to be done in a type does not grow. -/
structure Shrinks (U : Upkeep) (busy : Status) : Prop where
  whole : ∀ {s}, U.Inv s → s.Whole
  types : ∀ {s s'}, U.Leads s s' → ∀ t, s.Knows t →
    ∃ t', s'.Knows t' ∧ t'.id = t.id ∧ t'.pending busy ⊆ t.pending busy

/-- Working on a type, of which all that is nested in it has been begun, begins the type. -/
def Applies (U : Upkeep) (busy : Status) (work : Handle → Compile Unit) : Prop :=
  ∀ ⦃s t⦄, U.Inv s → s.Knows t → U.Fit s t.id → t.status < busy → (∀ c ∈ t.inner, c.pending busy = []) →
    U.conduct.Runs (work t.id) s fun _ s' => ¬ s'.Pends busy t.id

/-- A type that has been begun stays so. -/
theorem Shrinks.not_pends (hU : U.Shrinks busy) (hs' : U.Inv s') (hleads : U.Leads s₀ s)
    (hleads' : U.Leads s s') (ht : s₀.Knows t) (hbegun : ¬ s.Pends busy t.id) : ¬ s'.Pends busy t.id := by
  obtain ⟨u, hu, hid, -⟩ := hU.types hleads t ht
  obtain ⟨u', hu', hid', hsub⟩ := hU.types hleads' u hu
  rw [← hid] at hbegun ⊢
  rw [← hid', hu'.pends_iff (hU.whole hs')]
  intro hlt
  exact hbegun (hu.pends_of_mem (hid' ▸ hsub (SchemaType.mem_pending_iff.mpr ⟨u', .self, hlt, rfl⟩)))

namespace Applies

theorem applyPending_single (hU : U.Shrinks busy) (hwork : U.Applies busy work) (ht : s₀.Knows t)
    (hleads : U.Leads s₀ s) (hs : U.Inv s) (hfit : U.Fit s t.id)
    (hinner : ∀ h ∈ t.inner.flatMap (pending busy), ¬ s.Pends busy h) :
    U.conduct.Runs (applyPending busy work [t.id]) s fun _ s' => ¬ s'.Pends busy t.id := by
  obtain ⟨t', ht', hid, hsub⟩ := hU.types hleads t ht
  have hget := (Store.get?_eq_some_iff (hU.whole hs)).mpr ⟨ht', rfl⟩
  rw [applyPending, ← hid]
  refine typeOf_bind fun u hu => ?_
  obtain rfl := Option.some.inj (hu.symm.trans hget)
  split
  case isTrue hlt =>
    have hbegun : ∀ c ∈ u.inner, c.pending busy = [] :=
      inner_begun_of_pending hid (ht'.nodup_handles (hU.whole hs)) hsub fun h hh hpending =>
        hinner h hh (ht'.pends_of_mem hpending)
    exact .bind (hwork hs ht' (hid ▸ hfit) hlt hbegun) fun _ s' hs' _ hdone => .pure hs' hdone
  case isFalse hlt =>
    refine .pure hs ?_
    rwa [ht'.pends_iff (hU.whole hs)]

theorem applyPending_flatMap (hU : U.Shrinks busy) {ts : List SchemaType} (hknown : ∀ t ∈ ts, s₀.Knows t)
    (hts : ∀ t ∈ ts, ∀ {s}, U.Leads s₀ s → U.Inv s →
      U.conduct.Runs (applyPending busy work (t.pending busy).reverse) s
        fun _ s' => ∀ h ∈ t.pending busy, ¬ s'.Pends busy h)
    (hleads : U.Leads s₀ s) (hs : U.Inv s) :
    U.conduct.Runs (applyPending busy work (ts.flatMap (pending busy)).reverse) s
      fun _ s' => ∀ h ∈ ts.flatMap (pending busy), ¬ s'.Pends busy h := by
  induction ts generalizing s with
  | nil => exact .pure hs fun h hh => absurd hh List.not_mem_nil
  | cons t ts ih =>
    rw [List.flatMap_cons, List.reverse_append, applyPending_append]
    obtain ⟨-, hrest⟩ := List.forall_mem_cons.mp hknown
    refine .bind (ih hrest (fun u hu => hts u (List.mem_cons_of_mem _ hu)) hleads hs)
      fun _ s' hs' hleads' hdone => ?_
    have hleads' := U.trans hleads hleads'
    refine (hts t List.mem_cons_self hleads' hs').mono ?_
    intro _ s'' hs'' hleads'' hdone' h hh
    obtain hh | hh := List.mem_append.mp hh
    · exact hdone' h hh
    · obtain ⟨c, hc, hmem⟩ := List.mem_flatMap.mp hh
      obtain ⟨v, hv, -, rfl⟩ := SchemaType.mem_pending_iff.mp hmem
      exact hU.not_pends hs'' hleads' hleads'' ((hrest c hc).within hv) (hdone v.id hh)

/-- The types of a tree are worked on from the inside out. -/
theorem applyPending (hU : U.Shrinks busy) (hwork : U.Applies busy work) (t : SchemaType)
    (ht : s₀.Knows t) (hfit : ∀ v, Within v t → U.Fit s₀ v.id) (hleads : U.Leads s₀ s) (hs : U.Inv s) :
    U.conduct.Runs (applyPending busy work (t.pending busy).reverse) s
      fun _ s' => ∀ h ∈ t.pending busy, ¬ s'.Pends busy h := by
  induction t using induct generalizing s with
  | type t ih =>
    rw [pending_eq, List.reverse_append, applyPending_append]
    have hknown : ∀ c ∈ t.inner, s₀.Knows c := fun c hc => ht.within (.inner hc .self)
    refine .bind (applyPending_flatMap hU hknown (fun c hc => ih c hc (hknown c hc) fun v hv =>
      hfit v (.inner hc hv)) hleads hs) fun _ s' hs' hleads' hinner => ?_
    have hleads' := U.trans hleads hleads'
    split
    case isTrue =>
      refine (hwork.applyPending_single hU ht hleads' hs' (U.stays hleads' (hfit t .self)) hinner).mono ?_
      intro _ s'' hs'' hleads'' hself h hh
      obtain hh | hh := List.mem_append.mp hh
      · rwa [List.mem_singleton.mp hh]
      · obtain ⟨c, hc, hmem⟩ := List.mem_flatMap.mp hh
        obtain ⟨v, hv, -, rfl⟩ := SchemaType.mem_pending_iff.mp hmem
        exact hU.not_pends hs'' hleads' hleads'' ((hknown c hc).within hv) (hinner v.id hh)
    case isFalse => exact .pure hs' hinner

theorem applyTree (hU : U.Shrinks busy) (hwork : U.Applies busy work) (rounds : Nat) :
    U.Works fun h => Schemata.applyTree busy work h rounds := by
  induction rounds with
  | zero => exact fun s h _ _ => .throw trivial
  | succ rounds ih =>
    intro s h hs hh
    simp only [applyTree_succ]
    refine typeOf_bind fun t ht => ?_
    obtain ⟨hknown, -⟩ := Store.knows_of_get? ht
    split
    · exact .pure hs trivial
    · refine .bind (hwork.applyPending hU t hknown (fun v hv => U.nested hs hh ht hv) (U.refl s) hs)
        fun _ s' hs' hleads _ => ih hs' (U.stays hleads hh)

end Applies

/-- What the work on a type keeps up when all that is nested in the type has been begun, the work on trees
keeps up, to whatever depth look-ups lead. -/
theorem Shrinks.works_processTree {step : Step} (hU : U.Shrinks step.busy)
    (hsequential : step.parallel = false)
    (hstep : ∀ rounds process, U.Works process →
      U.Applies step.busy (step.apply rounds (.processing step.busy rounds process)))
    (rounds depth : Nat) : U.Works (step.processTree rounds depth) := by
  induction depth with
  | zero => exact fun s h _ _ => .throw trivial
  | succ depth ih =>
    intro s h hs hh
    rw [Step.processTree, hsequential, if_neg Bool.false_ne_true]
    exact (hstep rounds _ ih).applyTree hU rounds hs hh

end Upkeep

end Schemata
