import Schemata.Proofs.Binding.Ending
import Schemata.Proofs.Inherit.Names

/-!
# Flattening comes to an end

Looking up leads from a type to others that have not been begun, so that the work on a type comes to an
end by induction on their number. What is not bounded by it are the loops over bases and substitutes,
which come to an end by themselves: the loop over bases because the type is on no circle once its first
base is settled.
-/

namespace Schemata

open Compile SchemaType Store

variable {roots : List Handle} {s s' s₀ : Store} {t u : SchemaType} {h : Handle} {p : Nat}
  {finder : Nat → Finder} {process : Nat → Handle → Compile Unit} {rounds depth : Nat → Nat}

/-- The work on a root comes to an end, as long as fewer than a number of types have not been begun. -/
def Completes (roots : List Handle) (p : Nat) (process : Nat → Handle → Compile Unit) : Prop :=
  ∀ ⦃s u⦄, s.Orderly roots none → u ∈ s.types → s.remaining < p → Ends (fun n => process n u.id) s
    fun _ s' => s'.Orderly roots none ∧ Advances none s s' ∧ u.id ∉ s'.pending .flattening

-- ---------------------------------------------------------------------------
-- Look-up
-- ---------------------------------------------------------------------------

theorem Completes.findProcessed (hprocess : Completes roots p process) (hrounds : Ample rounds)
    (hs : s.Orderly roots none) (hfew : s.remaining < p) (q : QName) (c : SchemaType → Bool) :
    Ends (fun n => findProcessed .flattening (process n) q c (rounds n)) s fun r s' =>
      s'.Orderly roots none ∧ Advances none s s' ∧ Located q c r s' := by
  induction hleft : s.remaining using Nat.strong_induction_on generalizing s rounds with
  | _ left ih =>
    refine .round (x := fun n r => Schemata.findProcessed .flattening (process n) q c r) hrounds
      fun rest hrest => ?_
    simp only [Schemata.findProcessed]
    refine .get_bind ?_
    cases hlookup : s.lookup? q c with
    | none => exact .pure ⟨hs, .refl _ s, hlookup⟩
    | some t =>
      dsimp only
      obtain ⟨ht, -⟩ := hs.sound.mem_of_lookup? hlookup
      by_cases hlt : t.status < .flattening
      · simp only [if_pos hlt]
        refine .bind (hprocess hs ht hfew) ?_
        rintro _ s₁ ⟨hs₁, hadv₁, hdone⟩
        -- one type less has not been begun
        have hless : s₁.remaining < s.remaining :=
          remaining_lt hs₁.sound (hadv₁.pending_subset hs₁.flat)
            (mem_pending_iff.mpr ⟨t, holds_of_mem_types ht, hlt, rfl⟩) hdone
        refine (ih _ (hleft ▸ hless) hrest hs₁ (hless.trans hfew) rfl).mono ?_
        rintro r s₂ ⟨hs₂, hadv₂, hr⟩
        exact ⟨hs₂, hadv₁.trans hadv₂, hr⟩
      · simp only [if_neg hlt]
        exact .pure ⟨hs, .refl _ s, t, hlookup, rfl, hlt⟩

theorem Completes.reaches (hprocess : Completes roots p process) (hrounds : Ample rounds) :
    Reaches roots p fun n => .processing .flattening (rounds n) (process n) where
  find _ q c hs hfew := hprocess.findProcessed hrounds hs hfew q c
  findInner := by
    intro s fresh k q hs hk
    obtain ⟨u, hu, rfl⟩ := hs.exists_root hk
    have hnone : u.nested? q = none := by
      rw [nested?, hs.flat u hu]
      rfl
    refine .bind (P := fun _ _ => False) ?_ fun _ _ hfalse => hfalse.elim
    refine .typeOf_bind (hs.sound.get?_root hu) ?_
    rw [hnone]
    exact .throw Cause.noConfusion

-- ---------------------------------------------------------------------------
-- The work on a type
-- ---------------------------------------------------------------------------

theorem ends_runPasses {place : String} {pass : Pass} {rest : List Pass} {P Q : Unit → Store → Prop}
    (hpass : Ends (fun n => pass.run n (finder n) h) s P)
    (hrest : ∀ s', P () s' → Ends (fun n => runPasses place n (finder n) h rest) s' Q) :
    Ends (fun n => runPasses place n (finder n) h (pass :: rest)) s Q := by
  simp only [runPasses]
  refine .bind (.tryCatch hpass fun e s' he => ?_) fun _ s' hs' => hrest s' hs'
  unfold typeOf
  simp only [wp_bind, wp_get]
  cases s'.get? h with
  | none =>
    rw [wp_throw]
    exact Cause.noConfusion
  | some t =>
    rw [wp_pure, wp_throw]
    exact he

theorem mild_runPasses {place : String} (passes : List Pass)
    (hpasses : ∀ pass ∈ passes, Mild roots p none h (fun n => pass.run n (finder n) h) fun _ => True) :
    Mild roots p none h (fun n => runPasses place n (finder n) h passes) fun _ => True := by
  induction passes with
  | nil => exact .pure trivial
  | cons pass passes ih =>
    obtain ⟨hpass, hpasses⟩ := List.forall_mem_cons.mp hpasses
    intro s t ht
    refine ends_runPasses (hpass ht) ?_
    rintro s₁ ⟨t₁, ht₁, hadv₁, hext₁, -⟩
    refine (ih hpasses ht₁).mono ?_
    rintro _ s₂ ⟨t₂, ht₂, hadv₂, hext₂, -⟩
    exact ⟨t₂, ht₂, hadv₁.trans hadv₂, hext₂.trans hext₁, trivial⟩

/-- The passes after the settling of bases. -/
theorem mild_laterPasses (hfinder : Reaches roots p finder) (hh : h ∈ roots) :
    ∀ pass ∈ Step.flatten.passes.drop 2,
      Mild roots p none h (fun n => pass.run n (finder n) h) fun _ => True := by
  simp only [Step.flatten, List.drop_succ_cons, List.drop_zero, List.forall_mem_cons]
  refine ⟨mild_settleEnumeration hfinder hh, .update_fields fun t => ?_, mild_promoteInner,
    mild_addSubstitutes, mild_bindReferences hfinder hh, .update_fields fun _ => rfl,
    .update_fields fun t => ?_, mild_unwrapLists hfinder hh, by simp⟩
  · unfold groupRepetitions
    split
    · cases t
      rfl
    · rfl
  · unfold collectMixed
    split
    · rfl
    · cases t
      rfl

/-- A type is begun: it may be on a circle until its first base is settled. -/
theorem Store.Orderly.begin (hs : s.Orderly roots none) (hu : u ∈ s.types) (hlt : u.status < .flattening)
    (hfew : s.remaining < p + 1) :
    Active roots p (some u.id) u.id (s.update u.id fun t => { t with status := .flattening })
      { u with status := .flattening } ∧
    Advances (some u.id) s (s.update u.id fun t => { t with status := .flattening }) := by
  have hbusy : ¬ Status.flattening < .flattening := by decide
  obtain ⟨hs₁, hadv₁, hmem⟩ := hs.update (g := fun t => { t with status := .flattening })
    (some u.id) hu ⟨rfl, rfl, rfl, rfl⟩ hbusy
    (fun e he hnative k hk => .single ⟨u, hu, rfl, e, he, hnative, hk⟩)
    (fun e he => mem_baseNames_iff.mpr ⟨u, hu, e, he, rfl⟩) (fun hne => absurd rfl hne)
    fun _ _ _ => Option.some_ne_none _
  have hbegun : ∀ v ∈ (s.update u.id fun t => { t with status := .flattening }).types, v.id = u.id →
      ¬ v.status < .flattening := by
    intro v hv hid
    obtain rfl | ⟨-, hne⟩ := hmem.mp hv
    · exact hbusy
    · exact absurd hid hne
  have hsub := pending_subset hs₁.flat hadv₁.moves fun v hv hid => hbegun v hv (Option.some.inj hid)
  have hless := remaining_lt hs₁.sound hsub (mem_pending_iff.mpr ⟨u, holds_of_mem_types hu, hlt, rfl⟩) ?_
  · exact ⟨⟨hs₁, hmem.mpr (.inl rfl), rfl, rfl, by omega⟩, hadv₁⟩
  · intro hpending
    obtain ⟨v, hv, hvlt, hid⟩ := mem_pending_iff.mp hpending
    exact hbegun v (hs₁.flat.holds_iff.mp hv) hid hvlt

/-- The work on a type is done. -/
theorem Active.finish (ht : Active roots p none u.id s' t) (hadv : Advances (some u.id) s s')
    (hu : u ∈ s.types) (hlt : u.status < .flattening) :
    (s'.update u.id fun t => { t with status := .flattened }).Orderly roots none ∧
      Advances none s (s'.update u.id fun t => { t with status := .flattened }) ∧
      u.id ∉ (s'.update u.id fun t => { t with status := .flattened }).pending .flattening := by
  have hend : ¬ Status.flattened < .flattening := by decide
  obtain ⟨hs₁, hadv₁, hmem⟩ := ht.orderly.update (g := fun t => { t with status := .flattened })
    none ht.mem ⟨rfl, rfl, rfl, rfl⟩ hend
    (fun e he hnative k hk => .single ⟨t, ht.mem, rfl, e, he, hnative, hk⟩)
    (fun e he => mem_baseNames_iff.mpr ⟨t, ht.mem, e, he, rfl⟩)
    (fun hne => ht.orderly.begun t ht.mem ht.begun hne) fun _ _ hne => hne
  have hdone := hmem.mpr (.inl rfl)
  rw [ht.id] at hs₁ hadv₁ hdone
  have hmoves := (hadv.moves.trans hadv₁.moves).finish hs₁.sound hu hlt hdone rfl rfl
  refine ⟨hs₁, ⟨hmoves, hadv.shrinks.trans hadv₁.shrinks⟩, fun hpending => ?_⟩
  obtain ⟨v, hv, hvlt, hid⟩ := mem_pending_iff.mp hpending
  rw [hs₁.sound.eq_of_id (hs₁.flat.holds_iff.mp hv) hdone hid] at hvlt
  exact hend hvlt

theorem ends_apply (hfinder : Reaches roots p finder) (hs : s.Orderly roots none) (hu : u ∈ s.types)
    (hlt : u.status < .flattening) (hfew : s.remaining < p + 1) :
    Ends (fun n => Step.flatten.apply n (finder n) u.id) s fun _ s' =>
      s'.Orderly roots none ∧ Advances none s s' ∧ u.id ∉ s'.pending .flattening := by
  obtain ⟨ht₁, hadv₁⟩ := hs.begin hu hlt hfew
  unfold Step.apply
  refine .bind (P := fun _ s₁ => s₁ = s.update u.id fun t => { t with status := .flattening })
    (.const (wp_update.mpr rfl)) ?_
  rintro _ _ rfl
  refine .bind (P := fun _ s' => ∃ t, Active roots p none u.id s' t ∧ Advances (some u.id) s s') ?_ ?_
  · refine ends_runPasses (Mild.update_fields (fun _ => rfl) ht₁) ?_
    rintro s₂ ⟨t₂, ht₂, hadv₂, hext₂, -⟩
    -- the other bases did not lead back to the type before it was begun
    have hfirst : ∀ e ∈ t₂.extensions.tail, e.type.native = false → ¬ s₂.Leads e.type.qname u.id := by
      intro e he hnative hlead
      rw [hext₂] at he
      have hshrinks := hadv₁.shrinks.trans hadv₂.shrinks
      exact hs.waiting u hu hlt e he hnative (hshrinks.leads hs.sound ht₂.orderly.sound hlead)
    refine ends_runPasses (ends_flattenBases hfinder ample_id ht₂ hfirst) ?_
    rintro s₃ ⟨_, t₃, ht₃, hadv₃, -⟩
    refine (mild_runPasses _ (mild_laterPasses hfinder ht₃.mem_roots) ht₃).mono ?_
    rintro _ s₄ ⟨t₄, ht₄, hadv₄, -⟩
    exact ⟨t₄, ht₄, ((hadv₁.trans hadv₂).trans hadv₃).trans hadv₄⟩
  · rintro _ s₂ ⟨t₂, ht₂, hadv₂⟩
    exact .const (wp_update.mpr (ht₂.finish hadv₂ hu hlt))

-- ---------------------------------------------------------------------------
-- The step
-- ---------------------------------------------------------------------------

/-- There is nothing to do but the root itself. -/
theorem Store.Orderly.pending_root (hs : s.Orderly roots none) (hu : u ∈ s.types) :
    u.pending .flattening = if u.status < .flattening then [u.id] else [] := by
  rw [SchemaType.pending_eq, hs.flat u hu, List.flatMap_nil, List.append_nil]

theorem ends_applyTree_of_begun (hrounds : Ample rounds) (hs : s.Orderly roots none) (hu : u ∈ s.types)
    (hbegun : ¬ u.status < .flattening) :
    Ends (fun n => applyTree .flattening (Step.flatten.apply n (finder n)) u.id (rounds n)) s fun _ s' =>
      s'.Orderly roots none ∧ Advances none s s' ∧ u.id ∉ s'.pending .flattening := by
  refine .round (x := fun n r => applyTree .flattening (Step.flatten.apply n (finder n)) u.id r) hrounds
    fun rest _ => ?_
  simp only [applyTree_succ]
  refine .typeOf_bind (hs.sound.get?_root hu) ?_
  simp only [hs.pending_root hu, if_neg hbegun, List.isEmpty_nil, if_true]
  refine .pure ⟨hs, .refl _ s, ?_⟩
  rwa [(holds_of_mem_types hu).mem_pending_iff hs.sound.handles]

/-- A root is worked on in the first round, and nothing is left for the second. -/
theorem ends_applyTree (hfinder : Reaches roots p finder) (hrounds : Ample rounds)
    (hs : s.Orderly roots none) (hu : u ∈ s.types) (hfew : s.remaining < p + 1) :
    Ends (fun n => applyTree .flattening (Step.flatten.apply n (finder n)) u.id (rounds n)) s fun _ s' =>
      s'.Orderly roots none ∧ Advances none s s' ∧ u.id ∉ s'.pending .flattening := by
  by_cases hlt : u.status < .flattening
  case neg => exact ends_applyTree_of_begun hrounds hs hu hlt
  refine .round (x := fun n r => applyTree .flattening (Step.flatten.apply n (finder n)) u.id r) hrounds
    fun rest hrest => ?_
  simp only [applyTree_succ]
  have hget := hs.sound.get?_root hu
  refine .typeOf_bind hget ?_
  simp only [hs.pending_root hu, if_pos hlt, List.isEmpty_cons, Bool.false_eq_true, if_false,
    List.reverse_singleton, applyPending, bind_assoc]
  refine .typeOf_bind hget ?_
  simp only [if_pos hlt, bind_assoc, pure_bind]
  refine .bind (ends_apply hfinder hs hu hlt hfew) ?_
  rintro _ s₁ ⟨hs₁, hadv₁, hdone⟩
  obtain ⟨u₁, hu₁, hid, -⟩ := hadv₁.moves.exists_root hu
  rw [← hid] at hdone ⊢
  rw [(holds_of_mem_types hu₁).mem_pending_iff hs₁.sound.handles] at hdone
  refine (ends_applyTree_of_begun hrest hs₁ hu₁ hdone).mono ?_
  rintro _ s₂ ⟨hs₂, hadv₂, hend⟩
  exact ⟨hs₂, hadv₁.trans hadv₂, hend⟩

/-- Every look-up begins a type, so that the work on a root comes to an end by induction on the number
of types that have not been begun. -/
theorem completes_processTree (p : Nat) (hdepth : Ample depth) :
    Completes roots p fun n => Step.flatten.processTree n (depth n) := by
  induction p generalizing depth with
  | zero => exact fun s u _ _ hfew => absurd hfew (Nat.not_lt_zero _)
  | succ p ih =>
    intro s u hs hu hfew
    refine .round (x := fun n d => Step.flatten.processTree n d u.id) hdepth fun rest hrest => ?_
    exact ends_applyTree ((ih hrest).reaches ample_id) ample_id hs hu hfew

theorem ends_sweepRoots (es : List Entry) (hes : es ⊆ s₀.roots) (hadv : Advances none s₀ s)
    (hs : s.Orderly roots none) :
    Ends (fun n => Step.flatten.sweepRoots n (es.map (·.key))) s fun _ s' =>
      s'.Orderly roots none ∧ Advances none s s' ∧ ∀ e ∈ es, e.type.id ∉ s'.pending .flattening := by
  induction es generalizing s with
  | nil => exact .pure ⟨hs, .refl _ s, by simp⟩
  | cons e es ih =>
    obtain ⟨he, hes⟩ := List.cons_subset.mp hes
    have hmem := List.mem_map_of_mem (f := Entry.outline) he
    rw [← hadv.moves.outline] at hmem
    obtain ⟨e', he', houtline⟩ := List.mem_map.mp hmem
    have hkey : e'.key = e.key := congrArg (·.1) houtline
    have hid : e'.type.id = e.type.id := congrArg (·.2.1) houtline
    have hroot : e'.type ∈ s.types := List.mem_map_of_mem he'
    have htype := typeOfKey?_of_mem hs.sound.keys he'
    have hcontains : s.contains e'.key = true := by
      simp [Store.contains, htype, hs.sound.byHandle e' he']
    -- going on with the root begun
    have hnext : ∀ {s₁}, s₁.Orderly roots none → Advances none s s₁ → e'.type.id ∉ s₁.pending .flattening →
        Ends (fun n => Step.flatten.sweepRoots n (es.map (·.key))) s₁ fun _ s' =>
          s'.Orderly roots none ∧ Advances none s s' ∧
            ∀ f ∈ e :: es, f.type.id ∉ s'.pending .flattening := by
      intro s₁ hs₁ hadv₁ hdone
      refine (ih hes (hadv.trans hadv₁) hs₁).mono ?_
      rintro _ s₂ ⟨hs₂, hadv₂, hrest⟩
      refine ⟨hs₂, hadv₁.trans hadv₂, List.forall_mem_cons.mpr ⟨fun hpending => hdone ?_, hrest⟩⟩
      rw [hid]
      exact hadv₂.pending_subset hs₂.flat hpending
    simp only [List.map_cons, Step.sweepRoots, ← hkey]
    refine .get_bind ?_
    simp only [htype]
    refine .get_bind ?_
    by_cases hlt : e'.type.status < .flattening
    · have hcond : (Step.flatten.parallel || (decide (e'.type.status < Step.flatten.busy) &&
          s.contains e'.key)) = true := by
        rw [hcontains, Bool.and_true]
        exact decide_eq_true hlt
      simp only [hcond, if_true]
      refine .bind (completes_processTree (s.remaining + 1) ample_id hs hroot (Nat.lt_succ_self _)) ?_
      rintro _ s₁ ⟨hs₁, hadv₁, hdone⟩
      exact hnext hs₁ hadv₁ hdone
    · have hcond : (Step.flatten.parallel || (decide (e'.type.status < Step.flatten.busy) &&
          s.contains e'.key)) = false := by
        rw [hcontains, Bool.and_true]
        exact decide_eq_false hlt
      simp only [hcond, Bool.false_eq_true, if_false]
      refine hnext hs (.refl _ s) ?_
      rwa [(holds_of_mem_types hroot).mem_pending_iff hs.sound.handles]

/-- Of the passes, one gathers something before a sweep: the members of all groups. -/
theorem forM_prepare : Step.flatten.passes.forM Pass.prepare = prepareSubstitutes := by
  simp [Step.flatten, Pass.foldPaths, Pass.onType, Pass.flattenBases, Pass.settleEnumerations,
    Pass.groupRepetitions, Pass.promoteInner, Pass.addSubstitutes, Pass.bindReferences, Pass.mergeFields,
    Pass.collectMixed, Pass.unwrapLists]

theorem ends_record {P : Unit → Store → Prop} (ds : List Diagnostic)
    (hP : ∀ journal, P () { s with journal }) :
    Ends (fun _ => ds.forM fun d => modify (·.record (.noted d))) s P :=
  .const (wp_forM_record ds hP)

theorem ends_prepare (hs : s.Orderly roots none) :
    Ends (fun _ => Step.flatten.passes.forM Pass.prepare) s fun _ s' =>
      s'.Orderly roots none ∧ Advances none s s' := by
  have hmembers : ∀ p ∈ s.substitutions.1, ∃ ft, p.2.types = [ft] := by
    intro p hp
    obtain ⟨⟨head, t⟩, -, rfl⟩ := List.mem_map.mp hp
    exact ⟨_, rfl⟩
  rw [forM_prepare]
  unfold prepareSubstitutes
  refine .get_bind (.bind (P := fun _ s' => ∃ journal, s' = { s with journal })
    (ends_record _ fun journal => ⟨journal, rfl⟩) ?_)
  rintro _ _ ⟨journal, rfl⟩
  refine .const (wp_modify.mpr ⟨hs.quiet _ journal hmembers, .quiet _ s _ journal⟩)

theorem ends_sweep_of_begun {cancelled : Bool} (hrounds : Ample rounds) (number : Nat)
    (hbegun : ∀ t ∈ s.types, ¬ t.status < .flattening) :
    Ends (fun n => Step.flatten.sweep n cancelled (rounds n) number) s fun _ s' => s' = s := by
  refine .round (x := fun n r => Step.flatten.sweep n cancelled r number) hrounds fun rest _ => ?_
  simp only [Step.sweep]
  refine .get_bind ?_
  have hnone : s.roots.filter (·.type.status < Step.flatten.busy) = [] := by
    refine List.filter_eq_nil_iff.mpr fun e he => ?_
    rw [decide_eq_true_eq]
    exact hbegun e.type (List.mem_map_of_mem he)
  simp only [hnone, List.map_nil, List.isEmpty_nil, if_true]
  exact .pure rfl

/-- All roots are begun in the first sweep, and nothing is left for the second. -/
theorem ends_sweep {cancelled : Bool} (hrounds : Ample rounds) (number : Nat) (hs : s.Orderly roots none) :
    Ends (fun n => Step.flatten.sweep n cancelled (rounds n) number) s fun _ s' =>
      Moves none s s' ∧ ∀ t ∈ s'.types, ¬ t.status < .flattening := by
  by_cases hbegun : ∀ t ∈ s.types, ¬ t.status < .flattening
  · refine (ends_sweep_of_begun hrounds number hbegun).mono ?_
    rintro _ s rfl
    exact ⟨.refl _ s, hbegun⟩
  refine .round (x := fun n r => Step.flatten.sweep n cancelled r number) hrounds fun rest hrest => ?_
  simp only [Step.sweep]
  refine .get_bind ?_
  have hsome : ((s.roots.filter (·.type.status < Step.flatten.busy)).map (·.key)).isEmpty = false := by
    simp only [not_forall, not_not] at hbegun
    obtain ⟨t, ht, hlt⟩ := hbegun
    obtain ⟨e, he, rfl⟩ := List.mem_map.mp ht
    have hmem : e ∈ s.roots.filter (·.type.status < Step.flatten.busy) :=
      List.mem_filter.mpr ⟨he, decide_eq_true hlt⟩
    rw [List.isEmpty_eq_false_iff]
    exact List.ne_nil_of_mem (List.mem_map_of_mem hmem)
  simp only [hsome, Bool.false_eq_true, if_false]
  cases cancelled with
  | true =>
    simp only [if_true]
    exact .throw Cause.noConfusion
  | false =>
    simp only [Bool.false_eq_true, if_false]
    refine .bind (ends_prepare hs) ?_
    rintro _ s₁ ⟨hs₁, hadv₁⟩
    refine .bind (P := fun _ s₂ => s₂.Orderly roots none ∧ Advances none s s₂) (.const ?_) ?_
    · rw [wp_modify]
      exact ⟨hs₁.quiet s₁.memory _ hs₁.members, hadv₁.trans (.quiet _ s₁ s₁.memory _)⟩
    rintro _ s₂ ⟨hs₂, hadv₂⟩
    refine .bind (ends_sweepRoots _ (List.filter_subset_self _) hadv₂ hs₂) ?_
    rintro _ s₃ ⟨hs₃, hadv₃, hdone⟩
    have hadv := hadv₂.trans hadv₃
    have hbegun₃ : ∀ t ∈ s₃.types, ¬ t.status < .flattening := by
      intro t ht hlt
      have hpending : t.id ∈ s₃.pending .flattening :=
        mem_pending_iff.mpr ⟨t, holds_of_mem_types ht, hlt, rfl⟩
      obtain ⟨u, hu, hult, hid⟩ := mem_pending_iff.mp (hadv.pending_subset hs₃.flat hpending)
      obtain ⟨e, he, rfl⟩ := List.mem_map.mp (hs.flat.holds_iff.mp hu)
      exact hdone e (List.mem_filter.mpr ⟨he, decide_eq_true hult⟩) (hid ▸ hpending)
    refine (ends_sweep_of_begun hrest (number + 1) hbegun₃).mono ?_
    rintro _ s₃ rfl
    exact ⟨hadv.moves, hbegun₃⟩

/-- Flattening comes to an end when nothing is nested and of the bases of a type only the first one leads
back to it, whatever circles there are: from some bound on it has one outcome, whether it fails or not,
and when it does not fail, all types are done. -/
theorem flatten_ends (hs : s.Sound) (hflat : s.Flat) (hraw : ∀ t ∈ s.types, t.status = .raw)
    (hfirst : ∀ t ∈ s.types, ∀ e ∈ t.extensions.tail, e.type.native = false →
      ¬ s.Leads e.type.qname t.id) (cancelled : Bool) :
    Ends (fun n => Step.flatten.runWithin n cancelled) s fun _ s' =>
      ∀ t ∈ s'.types, t.status = .flattened := by
  have hpending : ∀ t ∈ s.types, t.status < .flattening := by
    intro t ht
    rw [hraw t ht]
    decide
  have horderly : ({ s with memory := { groupMarker := groupMarkerBase } } : Store).Orderly
      (s.types.map (·.id)) none :=
    ⟨⟨hs.keys, hs.handles, hs.below, hs.byName, hs.byHandle⟩, hflat, rfl, by simp,
      fun t ht hbegun => absurd (hpending t ht) hbegun, fun t ht _ => hfirst t ht⟩
  unfold Step.runWithin
  refine .bind (P := fun _ s₁ => s₁ = { s with memory := { groupMarker := groupMarkerBase } })
    (.const (wp_modify.mpr rfl)) ?_
  rintro _ _ rfl
  refine (ends_sweep ample_id 1 horderly).mono ?_
  rintro _ s' ⟨hmoves, hbegun⟩ t ht
  obtain hold | ⟨hdone, -⟩ := hmoves.types t ht (Option.some_ne_none _)
  · exact absurd (hpending t hold) (hbegun t ht)
  · exact hdone

namespace Entangled

open Sample

/-- Two records are on a circle of bases, and one of them has a base besides. -/
def store : Store :=
  ({} : Store).insertAll [record "A" ["x"] ["B", "C"], record "B" ["y"] ["A"], record "C" ["x", "z"] []]

theorem sound : store.Sound :=
  .insertAll (.empty {}) (.empty {}) (by decide)

theorem first_leads_back : ∀ t ∈ store.types, ∀ e ∈ t.extensions.tail, e.type.native = false →
    ¬ store.Leads e.type.qname t.id := by
  have hfalse : ∀ t ∈ store.types, ∀ e ∈ t.extensions.tail, store.leadsTo e.type.qname t.id = false := by
    decide +kernel
  exact fun t ht e he _ => not_leads_of_leadsTo sound (hfalse t ht e he)

theorem flatten_ends_on_circle :
    Ends (fun n => Step.flatten.runWithin n false) store fun _ s' => ∀ t ∈ s'.types, t.status = .flattened :=
  flatten_ends sound (by unfold Flat; decide +kernel) (by decide +kernel) first_leads_back false

end Entangled

end Schemata
