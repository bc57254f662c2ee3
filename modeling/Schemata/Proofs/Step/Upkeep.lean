import Schemata.Proofs.Step.WeakestPre

/-!
# What a step keeps true

An `Upkeep` is something that holds of a store and stays true, whatever types a step works on and in
whatever order, as long as it ends without a failure. Passes are applied to types that are fit for it;
what fits stays fit, and a name may be looked up if what has the name is fit. The engine adds nothing
but the status of types and what it records, so that it is enough to look at the work on one type, and
often at each pass alone.
-/

namespace Schemata

open Compile SchemaType

variable {α β : Type} {s s' : Store} {h : Handle} {t u : SchemaType}

structure Upkeep where
  Inv : Store → Prop
  Leads : Store → Store → Prop
  Fit : Store → Handle → Prop
  /-- What has the name may be worked on. -/
  Seek : Store → QName → Prop
  /-- Nothing is being worked on. -/
  Rest : Store → Prop
  refl : ∀ s, Leads s s
  trans : ∀ {s s' s''}, Leads s s' → Leads s' s'' → Leads s s''
  stays : ∀ {s s' h}, Leads s s' → Fit s h → Fit s' h
  sought : ∀ {s s' q}, Leads s s' → Seek s q → Seek s' q
  rests : ∀ {s s'}, Leads s s' → Rest s → Rest s'
  nested : ∀ {s h t u}, Inv s → Fit s h → s.get? h = some t → Within u t → Fit s u.id
  found : ∀ {s q p t}, Inv s → Seek s q → s.lookup? q p = some t → Fit s t.id
  swept : ∀ {s s' e t}, Inv s → Inv s' → Leads s s' → Rest s → e ∈ s.roots →
    s'.typeOfKey? e.key = some t → Fit s' t.id
  quiet : ∀ {s} (memory : Memory) journal, memory.substitutes ⊆ s.memory.substitutes → Inv s →
    Inv { s with memory, journal } ∧ Leads s { s with memory, journal }

namespace Upkeep

variable {U : Upkeep} {x : Compile α} {f : α → Compile β} {Q : α → Store → Prop}
  {Q' : β → Store → Prop} {process work : Handle → Compile Unit} {finder : Finder}
  {busy least : Status}

/-- What is kept up whatever type is worked on. -/
def always (Inv : Store → Prop)
    (quiet : ∀ s memory journal, Inv s → Inv { s with memory, journal }) : Upkeep where
  Inv := Inv
  Leads _ _ := True
  Fit _ _ := True
  Seek _ _ := True
  Rest _ := True
  refl _ := trivial
  trans _ _ := trivial
  stays _ _ := trivial
  sought _ _ := trivial
  rests _ _ := trivial
  nested _ _ _ _ := trivial
  found _ _ _ := trivial
  swept _ _ _ _ _ _ := trivial
  quiet memory journal _ hs := ⟨quiet _ memory journal hs, trivial⟩

/-- A failure is no matter of upkeep. -/
abbrev conduct (U : Upkeep) : Conduct where
  Inv := U.Inv
  Leads := U.Leads
  Fails _ _ _ := True
  refl := U.refl
  trans := U.trans
  fails _ _ := trivial

/-- Working on a type that is fit keeps up what is to be kept up. -/
def Works (U : Upkeep) (work : Handle → Compile Unit) : Prop :=
  ∀ ⦃s h⦄, U.Inv s → U.Fit s h → U.conduct.Runs (work h) s fun _ _ => True

/-- Working on a type that is fit and has not been begun keeps up what is to be kept up. -/
def Begins (U : Upkeep) (busy : Status) (work : Handle → Compile Unit) : Prop :=
  ∀ ⦃s h t⦄, U.Inv s → U.Fit s h → s.get? h = some t → t.status < busy →
    U.conduct.Runs (work h) s fun _ _ => True

/-- What a look-up by name comes to. -/
def Finds (U : Upkeep) (least : Status) (q : QName) (p : SchemaType → Bool) (r : Option Handle)
    (s : Store) : Prop :=
  ∀ h, r = some h → U.Fit s h ∧ ∃ t, s.lookup? q p = some t ∧ t.id = h ∧ ¬ t.status < least

/-- Looking up keeps up what is to be kept up, and what is found is fit and has come far enough. -/
structure Serves (U : Upkeep) (least : Status) (finder : Finder) : Prop where
  find : ∀ ⦃s⦄ q p, U.Inv s → U.Seek s q → U.conduct.Runs (finder.find q p) s (U.Finds least q p)
  findInner : ∀ ⦃s h⦄ q, U.Inv s → U.Fit s h → U.conduct.Runs (finder.findInner h q) s fun r s' => U.Fit s' r

theorem keeps_quiet {g : Store → Store} {Q : Unit → Store → Prop} (hs : U.Inv s)
    (hg : g s = { s with memory := (g s).memory, journal := (g s).journal }) (hQ : Q () (g s))
    (hmemory : (g s).memory.substitutes ⊆ s.memory.substitutes := by exact List.Subset.refl _) :
    U.conduct.Runs (modify g) s Q := by
  have hquiet := U.quiet (g s).memory (g s).journal hmemory hs
  rw [← hg] at hquiet
  exact .modify hquiet.1 hquiet.2 hQ

theorem typeOf_bind {f : SchemaType → Compile β}
    (hf : ∀ t, s.get? h = some t → U.conduct.Runs (f t) s Q') : U.conduct.Runs (typeOf h >>= f) s Q' :=
  .typeOf_bind hf fun _ => trivial

theorem fieldOf_bind {f : Field → Compile β} {i : Nat}
    (hf : ∀ t, s.get? h = some t → U.conduct.Runs (f (t.fields[i]?.getD {})) s Q') :
    U.conduct.Runs (fieldOf h i >>= f) s Q' :=
  .fieldOf_bind hf fun _ => trivial

/-- Passes keep up what each of them does. -/
theorem keeps_runPasses {J : Store → Prop} (place : String) {rounds : Nat} {passes : List Pass}
    (hpasses : ∀ pass ∈ passes, ∀ ⦃s⦄, U.Inv s → J s → U.conduct.Runs (pass.run rounds finder h) s fun _ => J)
    (hs : U.Inv s) (hJ : J s) : U.conduct.Runs (runPasses place rounds finder h passes) s fun _ => J := by
  induction passes generalizing s with
  | nil => exact .pure hs hJ
  | cons pass passes ih =>
    obtain ⟨hpass, hpasses⟩ := List.forall_mem_cons.mp hpasses
    exact .runPasses_cons (fun _ _ => trivial) (fun _ _ => trivial) (hpass hs hJ)
      fun s' hs' _ hJ' => ih hpasses hs' hJ'

-- ---------------------------------------------------------------------------
-- Look-up
-- ---------------------------------------------------------------------------

theorem Works.findProcessed (hprocess : U.Works process) (q : QName) (p : SchemaType → Bool)
    (rounds : Nat) (hs : U.Inv s) (hq : U.Seek s q) :
    U.conduct.Runs (findProcessed busy process q p rounds) s (U.Finds busy q p) := by
  induction rounds generalizing s with
  | zero => exact .throw trivial
  | succ rounds ih =>
    rw [Schemata.findProcessed]
    refine .get_bind ?_
    cases hlookup : s.lookup? q p with
    | none => exact .pure hs nofun
    | some t =>
      dsimp only
      split
      · refine .bind (hprocess hs (U.found hs hq hlookup)) fun _ s' hs' hleads _ => ?_
        exact ih hs' (U.sought hleads hq)
      case isFalse hbegun =>
        refine .pure hs fun h hh => ?_
        obtain rfl := Option.some.inj hh
        exact ⟨U.found hs hq hlookup, t, hlookup, rfl, hbegun⟩

theorem nested_findNested (q : QName) (hs : U.Inv s) (hh : U.Fit s h) :
    U.conduct.Runs (findNested h q) s fun t s' => U.Fit s' t.id := by
  unfold findNested
  refine typeOf_bind fun t ht => ?_
  cases hnested : t.nested? q with
  | none => exact .throw trivial
  | some v =>
    obtain ⟨c, hc, hv⟩ := mem_walkAll_iff.mp (List.mem_of_find?_eq_some hnested)
    exact .pure hs (U.nested hs hh ht (.inner hc hv))

theorem Works.serves_processing (hprocess : U.Works process) (rounds : Nat) :
    U.Serves busy (.processing busy rounds process) where
  find _ q p hs hq := hprocess.findProcessed q p rounds hs hq
  findInner s h q hs hh := by
    refine .bind (nested_findNested q hs hh) fun v s' hs' _ hv => ?_
    dsimp only
    split
    · refine .bind (hprocess hs' hv) fun _ s'' hs'' hleads _ => .pure hs'' ?_
      exact U.stays hleads hv
    · exact .pure hs' hv

theorem serves_plain : U.Serves .raw .plain where
  find s q p hs hq := by
    refine .get_bind (.pure hs fun h hh => ?_)
    obtain ⟨t, hlookup, rfl⟩ := Option.map_eq_some_iff.mp hh
    exact ⟨U.found hs hq hlookup, t, hlookup, rfl, Nat.not_lt_zero _⟩
  findInner s h q hs hh := by
    refine .bind (nested_findNested q hs hh) fun v s' hs' _ hv => ?_
    exact .pure hs' hv

-- ---------------------------------------------------------------------------
-- Types, trees and roots
-- ---------------------------------------------------------------------------

theorem works_runPasses (place : String) {rounds : Nat} (passes : List Pass)
    (hpasses : ∀ pass ∈ passes, U.Works (pass.run rounds finder)) :
    U.Works fun h => runPasses place rounds finder h passes :=
  fun _ h hs hh => (keeps_runPasses (J := (U.Fit · h)) place (fun pass hpass _ hs hh =>
    (hpasses pass hpass hs hh).mono fun _ _ _ hleads _ => U.stays hleads hh) hs hh).mono fun _ _ _ _ _ => trivial

theorem Begins.applyPending (hwork : U.Begins busy work) (hs₀ : List Handle) (hs : U.Inv s)
    (hfit : ∀ h ∈ hs₀, U.Fit s h) : U.conduct.Runs (applyPending busy work hs₀) s fun _ _ => True := by
  induction hs₀ generalizing s with
  | nil => exact .pure hs trivial
  | cons h rest ih =>
    obtain ⟨hh, hrest⟩ := List.forall_mem_cons.mp hfit
    rw [Schemata.applyPending]
    refine typeOf_bind fun t ht => ?_
    split
    case isTrue hlt =>
      refine .bind (hwork hs hh ht hlt) fun _ s' hs' hleads _ => ih hs' fun k hk => ?_
      exact U.stays hleads (hrest k hk)
    case isFalse => exact ih hs hrest

theorem Begins.applyTree (hwork : U.Begins busy work) (rounds : Nat) :
    U.Works fun h => Schemata.applyTree busy work h rounds := by
  induction rounds with
  | zero => exact fun s h _ _ => .throw trivial
  | succ rounds ih =>
    intro s h hs hh
    simp only [applyTree_succ]
    refine typeOf_bind fun t ht => ?_
    split
    · exact .pure hs trivial
    · refine .bind (hwork.applyPending _ hs fun k hk => ?_) fun _ s' hs' hleads _ =>
        ih hs' (U.stays hleads hh)
      obtain ⟨v, hv, -, rfl⟩ := SchemaType.mem_pending_iff.mp (List.mem_reverse.mp hk)
      exact U.nested hs hh ht hv

/-- What the work of a step on a type has to keep up. -/
structure Steps (U : Upkeep) (step : Step) : Prop where
  prepare : ∀ pass ∈ step.passes, ∀ ⦃s⦄, U.Inv s → U.conduct.Runs pass.prepare s fun _ _ => True
  apply : ∀ rounds finder, U.Serves (if step.parallel then .raw else step.busy) finder →
    U.Begins step.busy (step.apply rounds finder)

/-- What every pass of a step has to keep up, when each is looked at alone. -/
structure Passes (U : Upkeep) (step : Step) : Prop where
  prepare : ∀ pass ∈ step.passes, ∀ ⦃s⦄, U.Inv s → U.conduct.Runs pass.prepare s fun _ _ => True
  run : ∀ pass ∈ step.passes, ∀ {least} rounds finder, U.Serves least finder →
    U.Works (pass.run rounds finder)
  begins : U.Works fun h => update h fun t => { t with status := step.busy }
  ends : U.Works fun h => update h fun t => { t with status := step.done }

theorem Passes.steps {step : Step} (hstep : U.Passes step) : U.Steps step where
  prepare := hstep.prepare
  apply rounds finder hfinder s h t hs hh _ _ := by
    unfold Step.apply
    refine .bind (hstep.begins hs hh) fun _ s₁ hs₁ hleads₁ _ => ?_
    have hpasses := works_runPasses step.name step.passes
      fun pass hpass => hstep.run pass hpass rounds finder hfinder
    have hh₁ := U.stays hleads₁ hh
    refine .bind (hpasses hs₁ hh₁) fun _ s₂ hs₂ hleads₂ _ => ?_
    exact hstep.ends hs₂ (U.stays hleads₂ hh₁)

namespace Steps

variable {step : Step}

theorem processTree (hstep : U.Steps step) (rounds depth : Nat) :
    U.Works (step.processTree rounds depth) := by
  induction depth with
  | zero => exact fun s h _ _ => .throw trivial
  | succ depth ih =>
    intro s h hs hh
    rw [Step.processTree]
    have hserves : U.Serves (if step.parallel then .raw else step.busy)
        (if step.parallel then .plain
          else .processing step.busy rounds (step.processTree rounds depth)) := by
      split
      · exact serves_plain
      · exact ih.serves_processing rounds
    exact (hstep.apply rounds _ hserves).applyTree rounds hs hh

end Steps

/-- What the work of a step on a tree has to keep up. -/
structure Sweeps (U : Upkeep) (step : Step) : Prop where
  prepare : ∀ pass ∈ step.passes, ∀ ⦃s⦄, U.Inv s → U.conduct.Runs pass.prepare s fun _ _ => True
  process : ∀ rounds depth, U.Works (step.processTree rounds depth)

theorem Steps.sweeps {step : Step} (hstep : U.Steps step) : U.Sweeps step :=
  ⟨hstep.prepare, hstep.processTree⟩

namespace Sweeps

variable {step : Step}

theorem sweepRoots (hstep : U.Sweeps step) (bound : Nat) {s₀ : Store} (hs₀ : U.Inv s₀)
    (hrest : U.Rest s₀) (es : List Entry) (hes : es ⊆ s₀.roots) (hleads : U.Leads s₀ s) (hs : U.Inv s) :
    U.conduct.Runs (step.sweepRoots bound (es.map (·.key))) s fun _ _ => True := by
  induction es generalizing s with
  | nil => exact .pure hs trivial
  | cons e es ih =>
    obtain ⟨he, hes⟩ := List.cons_subset.mp hes
    rw [List.map_cons, Step.sweepRoots]
    refine .get_bind ?_
    cases htype : s.typeOfKey? e.key with
    | none => exact ih hes hleads hs
    | some t =>
      refine .get_bind ?_
      have hfit := U.swept hs₀ hs hleads hrest he htype
      split
      · refine .bind (hstep.process bound bound hs hfit) fun _ s' hs' hleads' _ => ?_
        exact ih hes (U.trans hleads hleads') hs'
      · exact ih hes hleads hs

theorem sweep (hstep : U.Sweeps step) (bound : Nat) (cancelled : Bool) (rounds number : Nat)
    (hs : U.Inv s) (hrest : U.Rest s) :
    U.conduct.Runs (step.sweep bound cancelled rounds number) s
      fun _ s' => ∀ t ∈ s'.types, ¬ t.status < step.busy := by
  induction rounds generalizing s number with
  | zero => exact .throw trivial
  | succ rounds ih =>
    rw [Step.sweep]
    refine .get_bind ?_
    dsimp only
    split
    case isTrue hnone =>
      refine .pure hs fun t ht hlt => ?_
      obtain ⟨e, he, rfl⟩ := List.mem_map.mp ht
      rw [List.isEmpty_iff, List.map_eq_nil_iff, List.filter_eq_nil_iff] at hnone
      exact hnone e he (decide_eq_true hlt)
    case isFalse =>
      split
      · exact .throw trivial
      · refine .bind (.forM (J := fun _ => True) step.passes
          (fun pass hpass s hs _ => hstep.prepare pass hpass hs) hs trivial) fun _ s₁ hs₁ hleads₁ _ => ?_
        refine .bind (keeps_quiet (Q := fun _ _ => True) hs₁ rfl trivial) fun _ s₂ hs₂ hleads₂ _ => ?_
        have hleads := U.trans hleads₁ hleads₂
        refine .bind (hstep.sweepRoots bound hs hrest _ (List.filter_subset_self _) hleads hs₂)
          fun _ s₃ hs₃ hleads₃ _ => ?_
        exact ih (number + 1) hs₃ (U.rests (U.trans hleads hleads₃) hrest)

theorem runWithin_keeps (hstep : U.Sweeps step) (bound : Nat) (cancelled : Bool) (hs : U.Inv s)
    (hrest : U.Rest s) :
    U.conduct.Runs (step.runWithin bound cancelled) s fun _ s' => ∀ t ∈ s'.types, ¬ t.status < step.busy := by
  unfold Step.runWithin
  refine .bind (keeps_quiet (Q := fun _ _ => True) hs rfl trivial (List.nil_subset _))
    fun _ s₁ hs₁ hleads₁ _ => ?_
  exact hstep.sweep _ cancelled _ 1 hs₁ (U.rests hleads₁ hrest)

/-- A step keeps up what the work on each type keeps up, and leaves no root that is not begun. -/
theorem run_keeps (hstep : U.Sweeps step) (cancelled : Bool) (hs : U.Inv s) (hrest : U.Rest s) :
    U.conduct.Runs (step.run cancelled) s fun _ s' => ∀ t ∈ s'.types, ¬ t.status < step.busy :=
  .get_bind (hstep.runWithin_keeps _ cancelled hs hrest)

end Sweeps

/-- A step that ends without a failure has begun every root, whatever its passes do. -/
theorem wp_runWithin_roots (step : Step) (bound : Nat) (cancelled : Bool) (s : Store) :
    wp (step.runWithin bound cancelled) (fun _ s' => ∀ t ∈ s'.types, ¬ t.status < step.busy)
      (fun _ _ => True) s := by
  let U : Upkeep := .always (fun _ => True) fun _ _ _ _ => trivial
  have htrivial : ∀ {x : Compile Unit} {s}, U.conduct.Runs x s fun _ _ => True :=
    wp_of_forall (fun _ _ => ⟨trivial, trivial, trivial⟩) fun _ _ => trivial
  have hsteps : U.Steps step := ⟨fun _ _ _ _ => htrivial, fun _ _ _ _ _ _ _ _ _ _ => htrivial⟩
  exact wp_mono (hsteps.sweeps.runWithin_keeps bound cancelled trivial trivial) (fun _ _ hend => hend.2.2)
    fun _ _ htrue => htrue

end Upkeep

/-- A step forgets what has been gathered before. -/
theorem wp_run_forget (step : Step) (cancelled : Bool) (Q : Unit → Store → Prop)
    (E : Failure → Store → Prop) (s : Store) :
    wp (step.run cancelled) Q E { s with memory := {} } = wp (step.run cancelled) Q E s := by
  simp only [Step.run, Step.runWithin, wp_bind, wp_get, wp_modify]
  rfl

end Schemata
