import Schemata.Output.Designation
import Schemata.Proofs.Digraph.Components
import Schemata.Proofs.Name.Segments
import Schemata.Proofs.Step.WeakestPre
import Schemata.Proofs.Store.Index
import Schemata.Proofs.Unique.Renames

/-!
# The modules that designation gives

A root gets a module whose path tells the scope of its name: it is the scope itself, or the scope is
the package of the module, or there is but one scope. Nothing else about a root changes, apart from
the modules of what is nested in it.
-/

namespace Schemata

open Compile

variable {s s' : Store} {e e' : Entry} {Q : Unit → Store → Prop} {E : Failure → Store → Prop}

/-- A path that types of a scope can have. -/
def OutputConfig.Fits (out : OutputConfig) (scope path : String) : Prop :=
  match out.layout with
  | .single | .clusters => True
  | .namespaceClusters => ModulePath.parent path = scope
  | .filenames | .namespaces => path = scope

/-- Types of one path are of one scope. -/
theorem scopeOf_eq_of_fits {path : String} (h : s.config.output.Fits (s.scopeOf e) path)
    (h' : s.config.output.Fits (s.scopeOf e') path) : s.scopeOf e = s.scopeOf e' := by
  unfold OutputConfig.Fits at h h'
  cases hlayout : s.config.output.layout with
  | single => simp only [Store.scopeOf, OutputConfig.scope, hlayout]
  | clusters => simp only [Store.scopeOf, OutputConfig.scope, hlayout]
  | namespaceClusters =>
    rw [hlayout] at h h'
    exact h.symm.trans h'
  | filenames =>
    rw [hlayout] at h h'
    exact h.symm.trans h'
  | namespaces =>
    rw [hlayout] at h h'
    exact h.symm.trans h'

/-- Roots that are the same as before, but for modules that fit their scopes. -/
structure Store.Houses (s s' : Store) : Prop where
  keys : s'.roots.map (·.key) = s.roots.map (·.key)
  placed : ∀ e' ∈ s'.roots, ∃ e ∈ s.roots, e'.key = e.key ∧ e'.type.qname = e.type.qname ∧
    s.config.output.Fits (s.scopeOf e) e'.type.modulePath

namespace Store

theorem houses_designateBy {moduleOf : SchemaType → ModuleId}
    (hfits : ∀ e ∈ s.roots, s.config.output.Fits (s.scopeOf e) (moduleOf e.type).path) :
    s.Houses (s.designateBy moduleOf) where
  keys := by
    rw [designateBy, List.map_map]
    rfl
  placed e' he' := by
    obtain ⟨e, he, rfl⟩ := List.mem_map.mp he'
    exact ⟨e, he, rfl, rfl, hfits e he⟩

-- ---------------------------------------------------------------------------
-- Clusters
-- ---------------------------------------------------------------------------

/-- A cluster and the module that its types are put into. -/
def house (e : Entry) (p : List Nat × ModuleId) : Entry :=
  if e.key ∈ p.1 then { e with type := e.type.setModule p.2 } else e

theorem roots_foldl_updateEntry (s : Store) (cluster : List Nat) (m : ModuleId) :
    (cluster.foldl (fun s key => s.updateEntry key (·.setModule m)) s).roots =
      s.roots.map (house · (cluster, m)) := by
  induction cluster generalizing s with
  | nil => exact (List.map_id _).symm
  | cons key cluster ih =>
    rw [List.foldl_cons, ih, updateEntry, List.map_map]
    refine List.map_congr_left fun e _ => ?_
    rw [Function.comp_apply]
    by_cases hkey : e.key = key
    · by_cases hmem : key ∈ cluster
      · simp [house, hkey, hmem, SchemaType.setModule]
      · simp [house, hkey, hmem]
    · simp [house, hkey]

theorem roots_designateClusters (s : Store) (clusters : List (List Nat))
    (packageOf : SchemaType → String) :
    (s.designateClusters clusters packageOf).roots = s.roots.map fun e =>
      (clusters.zip (clusterModules packageOf (clusters.map s.typesOf) [])).foldl house e := by
  unfold designateClusters
  dsimp only
  generalize clusters.zip _ = ps
  generalize s.typesOf = typesOf
  induction ps generalizing s with
  | nil => exact (List.map_id _).symm
  | cons p ps ih =>
    rw [List.foldl_cons, ih, roots_foldl_updateEntry, List.map_map]
    rfl

/-- The last cluster that a root is in decides. -/
theorem foldl_house_cases (ps : List (List Nat × ModuleId)) (e : Entry) :
    ((∀ p ∈ ps, e.key ∉ p.1) ∧ ps.foldl house e = e) ∨
      ∃ p ∈ ps, e.key ∈ p.1 ∧ ps.foldl house e = { e with type := e.type.setModule p.2 } := by
  induction ps generalizing e with
  | nil => exact .inl ⟨fun _ hp => absurd hp List.not_mem_nil, rfl⟩
  | cons p ps ih =>
    rw [List.foldl_cons]
    by_cases hmem : e.key ∈ p.1
    · refine .inr ?_
      rw [house, if_pos hmem]
      obtain ⟨-, heq⟩ | ⟨p', hp', hmem', heq⟩ := ih { e with type := e.type.setModule p.2 }
      · exact ⟨p, List.mem_cons_self, hmem, heq⟩
      · exact ⟨p', List.mem_cons_of_mem _ hp', hmem', heq⟩
    · rw [house, if_neg hmem]
      obtain ⟨hnone, heq⟩ | ⟨p', hp', hmem', heq⟩ := ih e
      · exact .inl ⟨List.forall_mem_cons.mpr ⟨hmem, hnone⟩, heq⟩
      · exact .inr ⟨p', List.mem_cons_of_mem _ hp', hmem', heq⟩

theorem map_fst_zip_clusterModules (packageOf : SchemaType → String) (typesOf : List Nat → List SchemaType)
    (clusters : List (List Nat)) (taken : List (String × List String)) :
    (clusters.zip (clusterModules packageOf (clusters.map typesOf) taken)).map (·.1) = clusters := by
  induction clusters generalizing taken with
  | nil => rfl
  | cons c clusters ih => exact congrArg (c :: ·) (ih _)

/-- The module of a cluster is in the package of its representative. -/
theorem package_of_mem_clusterModules (packageOf : SchemaType → String)
    (typesOf : List Nat → List SchemaType) (clusters : List (List Nat))
    (taken : List (String × List String)) :
    ∀ p ∈ clusters.zip (clusterModules packageOf (clusters.map typesOf) taken),
      p.2.package = packageOf (representative (typesOf p.1)) ∧ Name.Segment p.2.name := by
  intro p hp
  induction clusters generalizing taken with
  | nil => exact absurd hp List.not_mem_nil
  | cons c clusters ih =>
    obtain rfl | hp := List.mem_cons.mp hp
    · exact ⟨rfl, (Name.segment_snakeCase _).unique _⟩
    · exact ih _ hp

/-- A root that is in a cluster is put into the module of one that it is in. -/
theorem exists_house {clusters : List (List Nat)} {ps : List (List Nat × ModuleId)}
    (hclusters : ps.map (·.1) = clusters) (hcover : ∃ c ∈ clusters, e.key ∈ c) :
    ∃ p ∈ ps, e.key ∈ p.1 ∧ ps.foldl house e = { e with type := e.type.setModule p.2 } := by
  obtain ⟨hnone, -⟩ | hsome := foldl_house_cases ps e
  · obtain ⟨c, hc, hmem⟩ := hcover
    obtain ⟨p, hp, rfl⟩ := List.mem_map.mp (hclusters ▸ hc)
    exact absurd hmem (hnone p hp)
  · exact hsome

theorem houses_designateClusters {clusters : List (List Nat)} {packageOf : SchemaType → String}
    (hcover : ∀ e ∈ s.roots, ∃ c ∈ clusters, e.key ∈ c)
    (hfits : ∀ e ∈ s.roots, ∀ c ∈ clusters, e.key ∈ c → ∀ name, Name.Segment name →
      s.config.output.Fits (s.scopeOf e) (ModulePath.join [packageOf (representative (s.typesOf c)), name])) :
    s.Houses (s.designateClusters clusters packageOf) := by
  have hroots := roots_designateClusters s clusters packageOf
  have hclusters := map_fst_zip_clusterModules packageOf s.typesOf clusters []
  have hpackage := package_of_mem_clusterModules packageOf s.typesOf clusters []
  generalize clusters.zip _ = ps at hroots hclusters hpackage
  have hhouse := fun e he => exists_house hclusters (hcover e he)
  constructor
  case keys =>
    rw [hroots, List.map_map]
    refine List.map_congr_left fun e he => ?_
    obtain ⟨p, -, -, heq⟩ := hhouse e he
    rw [Function.comp_apply, heq]
  case placed =>
    intro e' he'
    rw [hroots] at he'
    obtain ⟨e, he, rfl⟩ := List.mem_map.mp he'
    obtain ⟨p, hp, hmem, heq⟩ := hhouse e he
    rw [heq]
    refine ⟨e, he, rfl, rfl, ?_⟩
    obtain ⟨hpackage, hsegment⟩ := hpackage p hp
    have hpath : (e.type.setModule p.2).modulePath =
        ModulePath.join [packageOf (representative (s.typesOf p.1)), p.2.name] := hpackage ▸ rfl
    rw [hpath]
    exact hfits e he p.1 (hclusters ▸ List.mem_map_of_mem hp) hmem p.2.name hsegment

/-- In a cluster of one namespace the representative has it. -/
theorem ns_representative {clusters : List (List Nat)} {c : List Nat}
    (hkeys : (s.roots.map (·.key)).Nodup) (hmixed : mixedCluster? (clusters.map s.typesOf) = none)
    (hc : c ∈ clusters) (he : e ∈ s.roots) (hmem : e.key ∈ c) :
    (representative (s.typesOf c)).ns = e.type.ns := by
  have hsame : ∀ t ∈ s.typesOf c, t.ns = ((s.typesOf c).headD {}).ns := by
    have hnone := List.find?_eq_none.mp hmixed _ (List.mem_map_of_mem hc)
    simpa using hnone
  have htype : e.type ∈ s.typesOf c :=
    List.mem_filterMap.mpr ⟨e.key, hmem, typeOfKey?_of_mem hkeys he⟩
  rw [hsame e.type htype, representative]
  cases hfind : (s.typesOf c).find? (·.isElement) with
  | none => rfl
  | some t => exact hsame t (List.mem_of_find?_eq_some hfind)

theorem exists_cluster (he : e ∈ s.roots) : ∃ c ∈ s.rootGraph.components, e.key ∈ c := by
  have hedges : ∀ (es : List Entry) (g : KeyedGraph Nat), g.keys ⊆ (es.foldl (fun g e =>
      (e.type.dependencyRefs.filterMap (ownerOf? s.roots)).foldl (fun g dep => g.addEdge e.key dep) g)
        g).keys := by
    intro es
    induction es with
    | nil => exact fun g => List.Subset.refl _
    | cons e es ih =>
      exact fun g => List.Subset.trans (KeyedGraph.keys_subset_addEdges g e.key _) (ih _)
  refine KeyedGraph.exists_component (hedges s.roots _ ?_)
  have hnodes := KeyedGraph.Represents.empty.addNodes (s.roots.map (·.key))
  rw [List.foldl_map] at hnodes
  exact (hnodes.keys e.key).mpr (.inr (List.mem_map_of_mem he))

theorem Houses.inheritModules (h : s.Houses s') : s.Houses s'.inheritModules where
  keys := by
    rw [← h.keys, Store.inheritModules, List.map_map]
    rfl
  placed e'' he'' := by
    obtain ⟨e', he', rfl⟩ := List.mem_map.mp he''
    obtain ⟨e, he, hkey, hqname, hfits⟩ := h.placed e' he'
    have hshallow : SchemaType.Shallow (·.setModule ⟨e'.type.package, e'.type.moduleName⟩) :=
      ⟨fun _ => rfl, fun _ _ => rfl⟩
    refine ⟨e, he, hkey, ?_⟩
    dsimp only
    rw [hshallow.mapTree_eq_withInner]
    exact ⟨hqname, hfits⟩

end Store

@[simp] theorem Compile.wp_set {s₁ : Store} : wp (set s₁) Q E s ↔ Q () s₁ := by
  rw [wp]
  rfl

theorem wp_designateRoots (hkeys : (s.roots.map (·.key)).Nodup) :
    wp (designateRoots s.rootGraph.components) (fun _ s' => s.Houses s') (fun _ _ => True) s := by
  have hcover : ∀ e ∈ s.roots, ∃ c ∈ s.rootGraph.components, e.key ∈ c := fun e => Store.exists_cluster
  unfold designateRoots
  rw [wp_bind, wp_get]
  dsimp only
  generalize s.rootGraph.components = clusters at hcover
  split
  case h_1 hlayout =>
    rw [wp_set]
    refine Store.houses_designateBy fun e _ => ?_
    rw [OutputConfig.Fits, hlayout]
    trivial
  case h_2 hlayout =>
    rw [wp_set]
    refine Store.houses_designateClusters hcover fun e _ c _ _ name _ => ?_
    rw [OutputConfig.Fits, hlayout]
    trivial
  case h_3 hlayout =>
    split
    case h_1 => rw [wp_throw]; trivial
    case h_2 hmixed =>
      rw [wp_set]
      refine Store.houses_designateClusters hcover fun e he c hc hmem name hname => ?_
      rw [OutputConfig.Fits, hlayout]
      dsimp only
      rw [ModulePath.parent_join hname, Store.ns_representative hkeys hmixed hc he hmem]
      simp only [Store.scopeOf, OutputConfig.scope, hlayout]
  case h_4 hlayout =>
    rw [wp_set]
    refine Store.houses_designateBy fun e _ => ?_
    simp only [OutputConfig.Fits, Store.scopeOf, OutputConfig.scope, hlayout]
  case h_5 hlayout =>
    rw [wp_set]
    refine Store.houses_designateBy fun e _ => ?_
    simp only [OutputConfig.Fits, Store.scopeOf, OutputConfig.scope, hlayout]

/-- Designation gives every root a module that fits the scope of its name. -/
theorem houses_of_designate (hkeys : (s.roots.map (·.key)).Nodup) :
    wp designate (fun _ s' => s.Houses s') (fun _ _ => True) s := by
  unfold designate
  rw [wp_bind, wp_get, wp_bind]
  refine wp_mono (wp_designateRoots hkeys) (fun _ s' hs' => ?_) fun _ _ _ => trivial
  rw [wp_bind, wp_modify, wp_bind, wp_get]
  split
  case h_1 => rw [wp_throw]; trivial
  case h_2 => rw [wp_pure]; exact hs'.inheritModules

end Schemata
