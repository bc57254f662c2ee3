import Schemata.Proofs.Choice.Wrapping
import Schemata.Proofs.Pipeline.Filtering
import Schemata.Proofs.Unique.Renaming

/-!
# References in the later stages

When flattening has bound every reference, the stages that follow keep them bound, with one exception:
clean-up drops and renames nested types without regard to references from further up than their
parents. Before clean-up references keep their targets, and after it no stage changes whether they
are bound.
-/

namespace Schemata

open Compile SchemaType

variable {s s' : Store} {cancelled : Bool} {b : Prop}

-- ---------------------------------------------------------------------------
-- Designation
-- ---------------------------------------------------------------------------

namespace Store

theorem facts_of_roots {F : Entry → SchemaType}
    (hroots : s'.roots = s.roots.map fun e => { e with type := F e })
    (hF : ∀ e ∈ s.roots, (F e).walk.map (fun u => (u.id, u.qname, u.links)) =
      e.type.walk.map fun u => (u.id, u.qname, u.links)) : s'.facts = s.facts := by
  simp only [facts, types, hroots, walkAll_eq_flatMap, List.map_map, List.map_flatMap, List.flatMap_map]
  exact List.flatMap_congr hF

theorem facts_setModule (t : SchemaType) (m : ModuleId) :
    (t.setModule m).walk.map (fun u => (u.id, u.qname, u.links)) =
      t.walk.map fun u => (u.id, u.qname, u.links) := by
  rw [walk_eq, walk_eq t]
  rfl

theorem facts_designateBy (s : Store) (moduleOf : SchemaType → ModuleId) :
    (s.designateBy moduleOf).facts = s.facts :=
  facts_of_roots rfl fun e _ => facts_setModule e.type _

theorem facts_designateClusters (s : Store) (clusters : List (List Nat))
    (packageOf : SchemaType → String) : (s.designateClusters clusters packageOf).facts = s.facts := by
  have hkey : ∀ (s : Store) key m, (s.updateEntry key (·.setModule m)).facts = s.facts := by
    intro s key m
    refine facts_of_roots (F := fun e => if e.key = key then e.type.setModule m else e.type) ?_ ?_
    · refine List.map_congr_left fun e _ => ?_
      split
      · rfl
      · rfl
    · intro e _
      split
      · exact facts_setModule e.type m
      · rfl
  have hcluster : ∀ m (cluster : List Nat) (s : Store),
      (cluster.foldl (fun s key => s.updateEntry key (·.setModule m)) s).facts = s.facts := by
    intro m cluster
    induction cluster with
    | nil => exact fun _ => rfl
    | cons key cluster ih => exact fun s => (ih _).trans (hkey s key m)
  unfold designateClusters
  dsimp only
  generalize clusters.zip _ = placed
  induction placed generalizing s with
  | nil => rfl
  | cons p placed ih => exact (ih _).trans (hcluster p.2 p.1 s)

theorem facts_inheritModules (s : Store) : s.inheritModules.facts = s.facts := by
  refine facts_of_roots rfl fun e _ => ?_
  have hshallow : Shallow fun t => t.setModule ⟨e.type.package, e.type.moduleName⟩ :=
    ⟨fun _ => rfl, fun _ _ => rfl⟩
  rw [hshallow.walk_mapTree, List.map_map]
  refine List.map_congr_left fun u _ => ?_
  rw [Function.comp_apply, hshallow.mapTree_eq_withInner]
  rfl

end Store

theorem wp_designate : wp designate (fun _ s' => s'.facts = s.facts) (fun _ _ => True) s := by
  unfold designate
  rw [wp_bind, wp_get, wp_bind]
  have hroots : ∀ clusters, wp (designateRoots clusters) (fun _ s' => s'.facts = s.facts)
      (fun _ _ => True) s := by
    intro clusters
    have hset : ∀ s' : Store, s'.facts = s.facts → wp (set s' : Compile Unit)
        (fun _ s' => s'.facts = s.facts) (fun _ _ => True) s := by
      intro s' h
      rw [wp]
      exact h
    unfold designateRoots
    rw [wp_bind, wp_get]
    dsimp only
    split
    · exact hset _ (s.facts_designateBy _)
    · exact hset _ (s.facts_designateClusters _ _)
    · split
      · rw [wp_throw]
        trivial
      · exact hset _ (s.facts_designateClusters _ _)
    · exact hset _ (s.facts_designateBy _)
    · exact hset _ (s.facts_designateBy _)
  refine wp_mono (hroots _) (fun _ s₁ hs₁ => ?_) fun _ _ htrue => htrue
  rw [wp_bind, wp_modify, wp_bind, wp_get]
  split
  · rw [wp_throw]
    trivial
  · rw [wp_pure]
    exact s₁.facts_inheritModules.trans hs₁

-- ---------------------------------------------------------------------------
-- Stages
-- ---------------------------------------------------------------------------

/-- What holds after a list of stages that ends without a failure. -/
def After (cancelled : Bool) (stages : List Stage) (Q : Store → Prop) (s : Store) : Prop :=
  wp (runStages cancelled stages) (fun _ s' => Q s') (fun _ _ => True) s

namespace After

variable {Q : Store → Prop} {stage : Stage} {rest : List Stage}

theorem nil (h : Q s) : After cancelled [] Q s := by
  unfold After runStages
  rwa [wp_pure]

theorem cons (h : wp (stage.run cancelled) (fun _ s' =>
    After cancelled rest Q (s'.record (.staged stage.name s'.roots.length))) (fun _ _ => True) s) :
    After cancelled (stage :: rest) Q s := by
  unfold After runStages Compile.within
  rw [wp_bind, wp_tryCatch]
  refine wp_mono h (fun _ s' hs' => ?_) fun _ s' _ => ?_
  · rw [wp_bind, wp_modify]
    exact hs'
  · rw [wp_throw]
    trivial

theorem append {l : List Stage} (h : After cancelled l (After cancelled rest Q) s) :
    After cancelled (l ++ rest) Q s := by
  have hruns : ∀ l, runStages cancelled (l ++ rest) =
      runStages cancelled l >>= fun _ => runStages cancelled rest := by
    intro l
    induction l with
    | nil => rw [runStages, pure_bind, List.nil_append]
    | cons stage l ih => simp only [List.cons_append, runStages, bind_assoc, ih]
  unfold After
  rw [hruns, wp_bind]
  exact h

theorem mono {P : Store → Prop} {stages : List Stage} (h : After cancelled stages P s)
    (hPQ : ∀ s', P s' → Q s') : After cancelled stages Q s :=
  wp_mono h (fun _ s' hs' => hPQ s' hs') fun _ _ htrue => htrue

/-- A step keeps up what its passes keep up. -/
theorem step {U : Upkeep} {step : Step} (hstep : U.Passes step) (hs : U.Inv s) (hstart : U.Rest s)
    (hrest : ∀ s', U.Inv s' → After cancelled rest Q s') :
    After cancelled (.step step :: rest) Q s := by
  refine cons (wp_mono (hstep.steps.sweeps.run_keeps cancelled hs hstart) (fun _ s' hs' => ?_) fun _ _ htrue => htrue)
  exact hrest _ (U.quiet s'.memory _ (List.Subset.refl _) hs'.1).1

end After

/-- What holds up to clean-up: links are anchored, and direct if they were to begin with. -/
structure Store.Anchoring (b : Prop) (s : Store) : Prop where
  sound : s.Sound
  keys : s.KeysBelow
  positive : 0 < s.nextHandle
  anchored : s.Anchored
  direct : b → s.Direct

namespace Store

theorem Anchoring.quiet (s : Store) (memory : Memory) (journal : List Event) (hs : s.Anchoring b) :
    { s with memory, journal }.Anchoring b :=
  ⟨⟨hs.sound.keys, hs.sound.handles, hs.sound.below, hs.sound.byName, hs.sound.byHandle⟩, hs.keys,
    hs.positive, ⟨hs.anchored.dependency, hs.anchored.forward⟩, hs.direct⟩

def anchoring (b : Prop) : Upkeep :=
  .always (Anchoring b) Anchoring.quiet

theorem admits_anchoring (b : Prop) : (anchoring b).Admits Fewer where
  nodup hs := Sound.handles (Anchoring.sound hs)
  seek _ := trivial
  update {s h g} hs hg hlinks := by
    have hs : Anchoring b s := hs
    have hrecast := recast_update (P := Fewer) hs.sound.handles hg (fun _ => List.Subset.refl _) hlinks
    exact ⟨⟨hs.sound.update_alike hg, hs.keys.update _ _, hs.positive, hs.anchored.recast hrecast,
      fun hb => (hs.direct hb).recast hrecast⟩, trivial⟩

theorem Anchoring.filterGenerated (hs : s.Anchoring b) : s.filterGenerated.Anchoring b := by
  have hfilters := filters_filterGenerated hs.sound
  refine ⟨hfilters.sound, hfilters.keys hs.keys, hfilters.nextHandle ▸ hs.positive,
    hfilters.anchored hs.anchored, fun hb u hu => ?_⟩
  obtain ⟨t, ht, hut⟩ := hu
  exact hs.direct hb ⟨t, hfilters.subset ht, hut⟩

end Store

theorem anchored_before_cleanup (hs : s.Anchoring b) {Q : Store → Prop}
    (hQ : ∀ s₁, s₁.Anchoring b → Q s₁) :
    After cancelled [.filter, .step .sanitize, .step .resolve] Q s := by
  refine .cons ?_
  unfold Stage.run
  rw [wp_modify]
  refine .step (Store.admits_anchoring b).passes_sanitize (hs.filterGenerated.quiet _ _ _) trivial
    fun s₁ hs₁ => ?_
  exact .step (Store.admits_anchoring b).passes_resolve hs₁ trivial fun s₂ hs₂ => .nil (hQ s₂ hs₂)

theorem settled_by_cleanup (hs : s.Anchoring b) {Q : Store → Prop}
    (hQ : ∀ s₂, s₂.Settled (s.Spares s₂) → Q s₂) : After cancelled [.step .cleanup] Q s := by
  refine .step (Store.passes_cleanup s) (hs.anchored.cleaning hs.sound hs.keys) trivial
    fun s₂ hs₂ => .nil ?_
  exact hQ s₂ (Store.Cleaning.settled hs₂ hs.sound hs.positive hs.anchored)

theorem bound_after_cleanup (hs : s.Settled b) :
    After cancelled [.step .compound, .nameTypes, .step .finalize, .designate]
      (fun s' => (Forest.ofTypes s'.types).unbound? = none ↔ b) s := by
  have hquiet : ∀ {s : Store} journal, s.Settled b → { s with journal }.Settled b :=
    fun {s} journal hs => ((Store.settling b).quiet s.memory journal (List.Subset.refl _) hs).1
  refine .step (passes_compound b) hs trivial fun s₁ hs₁ => .cons ?_
  unfold Stage.run
  rw [wp_modify]
  refine .step (Store.admits_settling b).passes_finalize
    (hquiet _ (Store.Settled.nameTypes hs₁)) trivial fun s₂ hs₂ => .cons ?_
  refine wp_mono wp_designate (fun _ s₃ hfacts => .nil ?_) fun _ _ htrue => htrue
  have hs₂ : s₂.Settled b := hs₂
  have hnodup : s₃.handles.Nodup := Store.handles_of_facts hfacts ▸ hs₂.sound.handles
  exact (Store.unbound?_eq_none_iff hnodup).trans
    ((Store.allBound_iff_of_facts hfacts).trans hs₂.allBound)

/-- When the stages after flattening start with bound references and end without a failure, the check
of references accepts their result if and only if clean-up has spared the types that are referred to
from more than one level up; in particular if there are none. -/
theorem integrity_after_stages_iff (hs : s.Sound) (hkeys : s.KeysBelow) (hpositive : 0 < s.nextHandle)
    (hanchored : s.Anchored) (cancelled : Bool) :
    After cancelled [.filter, .step .sanitize, .step .resolve] (fun s₁ =>
      After cancelled [.step .cleanup] (fun s₂ =>
        After cancelled [.step .compound, .nameTypes, .step .finalize, .designate] (fun s' =>
          (Forest.ofTypes s'.types).unbound? = none ↔ s₁.Spares s₂) s₂) s₁) s ∧
    (s.Direct → After cancelled (pipeline.drop 3) (fun s' =>
      (Forest.ofTypes s'.types).unbound? = none) s) := by
  have hstart : s.Anchoring s.Direct := ⟨hs, hkeys, hpositive, hanchored, id⟩
  constructor
  · refine anchored_before_cleanup hstart fun s₁ hs₁ => ?_
    exact settled_by_cleanup hs₁ fun s₂ hs₂ => bound_after_cleanup hs₂
  · intro hdirect
    refine .append (l := [.filter, .step .sanitize, .step .resolve]) ?_
    refine anchored_before_cleanup hstart fun s₁ hs₁ => .append (l := [.step .cleanup]) ?_
    refine settled_by_cleanup hs₁ fun s₂ hs₂ => (bound_after_cleanup hs₂).mono fun s' hs' => ?_
    exact hs'.mpr (hs₁.direct hdirect).spares

namespace Buried

/-- A record that refers to a type two levels down, which is empty. -/
def store : Store :=
  ({} : Store).insertAll [
    { qname := ⟨"urn:t", "R"⟩, tag := .complexType, status := .flattened
      fields := [
        { tag := .element, name := "e", types := [.ofForward ⟨"urn:t", "E"⟩ 3] },
        { tag := .element, name := "m", types := [.ofForward ⟨"urn:t", "M"⟩ 2] }]
      inner := [
        { qname := ⟨"urn:t", "M"⟩, tag := .complexType, status := .flattened
          fields := [{ tag := .element, name := "x", types := [.ofNative Native.string] }]
          inner := [{ qname := ⟨"urn:t", "E"⟩, tag := .complexType, status := .flattened }] }] }]

/-- Not every reference stays bound: clean-up drops the empty type from its parent, and the record
still refers to it. -/
theorem stages_unbind :
    store.Sound ∧ store.KeysBelow ∧ 0 < store.nextHandle ∧ store.Anchored ∧
    (∀ u, store.Holds u → u.status = .flattened) ∧
    wp (runStages false (pipeline.drop 3))
      (fun _ s' => (Forest.ofTypes s'.types).unbound? = some (⟨"urn:t", "R"⟩, .ofForward ⟨"urn:t", "E"⟩ 3))
      (fun _ _ => False) store := by
  refine ⟨.insertAll (.empty {}) (.empty {}) (by decide),
    ((Store.Fresh.empty {}).insertAll _).keysBelow, by decide +kernel, by decide +kernel, ?_, ?_⟩
  · simp only [Store.holds_iff_mem_walkAll]
    decide +kernel
  · decide +kernel

end Buried

namespace Layered

/-- A record with a nested record, which refers to a type nested in it and to another record. -/
def store : Store :=
  ({} : Store).insertAll [
    { qname := ⟨"urn:t", "R"⟩, tag := .complexType, status := .flattened
      fields := [{ tag := .element, name := "m", types := [.ofForward ⟨"urn:t", "M"⟩ 2] }]
      inner := [
        { qname := ⟨"urn:t", "M"⟩, tag := .complexType, status := .flattened
          fields := [
            { tag := .element, name := "e", types := [.ofForward ⟨"urn:t", "E"⟩ 3] },
            { tag := .element, name := "d", types := [{ qname := ⟨"urn:t", "D"⟩, reference := 4 }] }]
          inner := [{ qname := ⟨"urn:t", "E"⟩, tag := .complexType, status := .flattened }] }] },
    { qname := ⟨"urn:t", "D"⟩, tag := .complexType, status := .flattened
      fields := [{ tag := .element, name := "x", types := [.ofNative Native.string] }] }]

theorem stages_keep_bound :
    (store.Sound ∧ store.KeysBelow ∧ 0 < store.nextHandle ∧ store.Anchored ∧ store.Direct) ∧
    wp (runStages false (pipeline.drop 3)) (fun _ s' => s'.types.length = 2) (fun _ _ => False) store ∧
    After false (pipeline.drop 3) (fun s' => (Forest.ofTypes s'.types).unbound? = none) store := by
  have hs : store.Sound := .insertAll (.empty {}) (.empty {}) (by decide)
  have hkeys : store.KeysBelow := ((Store.Fresh.empty {}).insertAll _).keysBelow
  have hpositive : 0 < store.nextHandle := by decide +kernel
  have hanchored : store.Anchored := by decide +kernel
  have hdirect : store.Direct := by decide +kernel
  refine ⟨⟨hs, hkeys, hpositive, hanchored, hdirect⟩, by decide +kernel, ?_⟩
  exact (integrity_after_stages_iff hs hkeys hpositive hanchored false).2 hdirect

end Layered

end Schemata
