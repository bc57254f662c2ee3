import Schemata.Proofs.Output.Designation
import Schemata.Proofs.Store.Sound

/-!
# Designation by clusters

A root uses another one when a dependency of it, or of a type nested in it, is bound to the other root
or to a type nested in that. Designation looks at the roots that use each other in circles: it puts
every root, with all that is nested in it, into one module, and fails when such a circle leads through
several modules. Under the layouts by clusters two roots are in one module exactly when each leads to
the other.
-/

namespace Schemata

open Compile Relation SchemaType

variable {s : Store} {e e' : Entry} {t t' : SchemaType} {h : Handle} {c : List Nat}

/-- A dependency of the type, or of one nested in it, is bound to the other type or to one nested in
that. -/
def SchemaType.Uses (t t' : SchemaType) : Prop :=
  ∃ ft, t.Refers ft ∧ ft.isDependency = true ∧ ft.reference ≠ 0 ∧ ∃ v, Within v t' ∧ v.id = ft.reference

/-- A root uses another root. -/
def Store.Uses (s : Store) (e e' : Entry) : Prop :=
  e ∈ s.roots ∧ e' ∈ s.roots ∧ e.type.Uses e'.type

-- ---------------------------------------------------------------------------
-- The graph of roots
-- ---------------------------------------------------------------------------

theorem mem_dependencyRefs_iff : h ∈ t.dependencyRefs ↔
    ∃ ft, t.Refers ft ∧ ft.isDependency = true ∧ ft.reference ≠ 0 ∧ ft.reference = h := by
  simp only [dependencyRefs, List.mem_eraseDups, List.mem_map, List.mem_filter,
    mem_flatMap_fieldTypes_iff, Bool.and_eq_true, bne_iff_ne, and_assoc]

theorem SchemaType.uses_iff : t.Uses t' ↔ ∃ h ∈ t.dependencyRefs, h ∈ t'.handles := by
  simp only [mem_dependencyRefs_iff, SchemaType.mem_handles_iff]
  constructor
  · rintro ⟨ft, href, hdep, hbound, v, hv, hid⟩
    exact ⟨_, ⟨ft, href, hdep, hbound, rfl⟩, v, hv, hid⟩
  · rintro ⟨_, ⟨ft, href, hdep, hbound, rfl⟩, v, hv, hid⟩
    exact ⟨ft, href, hdep, hbound, v, hv, hid⟩

instance : Decidable (t.Uses t') :=
  decidable_of_iff _ SchemaType.uses_iff.symm

namespace Store

theorem ownerOf?_eq_some {k : Nat} (hk : ownerOf? s.roots h = some k) :
    ∃ e ∈ s.roots, e.key = k ∧ h ∈ e.type.handles := by
  obtain ⟨e, he, rfl⟩ := Option.map_eq_some_iff.mp hk
  have hmem := List.mem_reverse.mp (List.mem_of_find?_eq_some he)
  have hany := List.find?_some he
  obtain ⟨u, hu, hid⟩ := List.any_eq_true.mp hany
  exact ⟨e, hmem, rfl, SchemaType.mem_handles_iff.mpr ⟨u, mem_walk_iff.mp hu, beq_iff_eq.mp hid⟩⟩

/-- Handles that tell types apart have one owner at most. -/
theorem ownerOf?_eq_some_iff (hhandles : s.handles.Nodup) {k : Nat} :
    ownerOf? s.roots h = some k ↔ ∃ e ∈ s.roots, e.key = k ∧ h ∈ e.type.handles := by
  refine ⟨ownerOf?_eq_some, ?_⟩
  rintro ⟨e, he, rfl, hh⟩
  cases hfind : ownerOf? s.roots h with
  | none =>
    have hnone := List.find?_eq_none.mp (Option.map_eq_none_iff.mp hfind) e (List.mem_reverse.mpr he)
    obtain ⟨u, hu, rfl⟩ := SchemaType.mem_handles_iff.mp hh
    refine absurd ?_ hnone
    exact List.any_eq_true.mpr ⟨u, mem_walk_iff.mpr hu, beq_self_eq_true u.id⟩
  | some k =>
    obtain ⟨e', he', rfl, hh'⟩ := ownerOf?_eq_some hfind
    have htype := eq_of_mem_handles hhandles (List.mem_map_of_mem he') (List.mem_map_of_mem he) hh' hh
    rw [List.inj_on_of_nodup_map (nodup_root_ids hhandles) he' he (congrArg SchemaType.id htype)]

/-- The edges that the dependencies of roots add to a graph that has all roots for nodes. -/
theorem foldl_addEdges_represents (roots es : List Entry) {g : KeyedGraph Nat}
    {E : Nat → Nat → Prop} (hes : es ⊆ roots) (hg : g.Represents (· ∈ roots.map (·.key)) E)
    (howner : ∀ h k, ownerOf? roots h = some k → k ∈ roots.map (·.key)) :
    (es.foldl (fun g e => (e.type.dependencyRefs.filterMap (ownerOf? roots)).foldl
      (fun g dep => g.addEdge e.key dep) g) g).Represents (· ∈ roots.map (·.key))
      (fun a b => E a b ∨ ∃ e ∈ es, e.key = a ∧ ∃ h ∈ e.type.dependencyRefs, ownerOf? roots h = some b) := by
  induction es generalizing g E with
  | nil => exact hg.congr (fun _ => .rfl) (by simp)
  | cons e es ih =>
    obtain ⟨he, hes⟩ := List.cons_subset.mp hes
    have hedges := hg.addEdges (List.mem_map_of_mem he)
      (e.type.dependencyRefs.filterMap (ownerOf? roots))
    have hnodes : ∀ k, (k ∈ roots.map (·.key) ∨ k ∈ e.type.dependencyRefs.filterMap (ownerOf? roots)) ↔
        k ∈ roots.map (·.key) := by
      refine fun k => or_iff_left_of_imp fun hk => ?_
      obtain ⟨h, -, hh⟩ := List.mem_filterMap.mp hk
      exact howner h k hh
    refine (ih hes (hedges.congr hnodes fun _ _ => .rfl)).congr (fun _ => .rfl) fun a b => ?_
    simp only [List.mem_cons, exists_eq_or_imp, List.mem_filterMap, or_assoc, eq_comm (a := a)]

theorem rootGraph_represents (hhandles : s.handles.Nodup) :
    s.rootGraph.Represents (· ∈ s.roots.map (·.key))
      (fun a b => ∃ e e', s.Uses e e' ∧ e.key = a ∧ e'.key = b) := by
  have hnodes := KeyedGraph.Represents.empty.addNodes (s.roots.map (·.key))
  rw [List.foldl_map] at hnodes
  have hedges := foldl_addEdges_represents s.roots s.roots (List.Subset.refl _)
    (hnodes.congr (by simp) fun _ _ => .rfl) fun h k hk => by
      obtain ⟨e, he, rfl, -⟩ := ownerOf?_eq_some hk
      exact List.mem_map_of_mem he
  refine hedges.congr (fun _ => .rfl) fun a b => ?_
  simp only [false_or, ownerOf?_eq_some_iff hhandles]
  constructor
  · rintro ⟨e, he, rfl, h, hh, e', he', rfl, hh'⟩
    exact ⟨e, e', ⟨he, he', uses_iff.mpr ⟨h, hh, hh'⟩⟩, rfl, rfl⟩
  · rintro ⟨e, e', ⟨he, he', huses⟩, rfl, rfl⟩
    obtain ⟨h, hh, hh'⟩ := uses_iff.mp huses
    exact ⟨e, he, rfl, h, hh, e', he', rfl, hh'⟩

/-- Ways between roots are ways between their entry numbers. -/
theorem reflTransGen_key_iff (hkeys : (s.roots.map (·.key)).Nodup) (he : e ∈ s.roots)
    (he' : e' ∈ s.roots) :
    ReflTransGen (fun a b => ∃ e e', s.Uses e e' ∧ e.key = a ∧ e'.key = b) e.key e'.key ↔
      ReflTransGen s.Uses e e' := by
  constructor
  · intro hway
    generalize hb : e'.key = b at hway
    induction hway generalizing e' with
    | refl => exact List.inj_on_of_nodup_map hkeys he' he hb ▸ .refl
    | tail _ hstep ih =>
      obtain ⟨d, d', huses, rfl, rfl⟩ := hstep
      obtain rfl := List.inj_on_of_nodup_map hkeys he' huses.2.1 hb
      exact .tail (ih huses.1 rfl) huses
  · exact fun hway => hway.lift Entry.key fun a b huses => ⟨a, b, huses, rfl, rfl⟩

/-- The roots of a cluster are those that lead to one of them and back. -/
theorem mem_cluster_iff (hkeys : (s.roots.map (·.key)).Nodup) (hhandles : s.handles.Nodup)
    (hc : c ∈ s.rootGraph.components) (he : e ∈ s.roots) (hmem : e.key ∈ c) (he' : e' ∈ s.roots) :
    e'.key ∈ c ↔ Mutual s.Uses e e' := by
  rw [(rootGraph_represents hhandles).mem_component_iff hc hmem]
  simp only [Mutual, reflTransGen_key_iff hkeys he he', reflTransGen_key_iff hkeys he' he]
  exact and_iff_right (List.mem_map_of_mem he')

theorem exists_root_of_mem_cluster (hhandles : s.handles.Nodup) (hc : c ∈ s.rootGraph.components) :
    ∀ k ∈ c, ∃ e ∈ s.roots, e.key = k := by
  intro k hk
  have hnode := (((rootGraph_represents hhandles).mem_component_iff hc hk).mp hk).1
  exact List.mem_map.mp hnode

end Store

-- ---------------------------------------------------------------------------
-- The modules of clusters
-- ---------------------------------------------------------------------------

/-- No two modules of one package have names of one key, and none has a key that is taken. -/
theorem clusterModules_apart (packageOf : SchemaType → String) (clusters : List (List SchemaType))
    (taken : List (String × List String)) :
    (∀ m ∈ clusterModules packageOf clusters taken,
      Name.key m.name ∉ (taken.lookup m.package).getD []) ∧
    (clusterModules packageOf clusters taken).Pairwise fun m m' =>
      m.package = m'.package → Name.key m.name ≠ Name.key m'.name := by
  induction clusters generalizing taken with
  | nil => exact ⟨fun _ hm => absurd hm List.not_mem_nil, .nil⟩
  | cons cluster clusters ih =>
    rw [clusterModules]
    dsimp only
    rw [Name.unique_snd]
    generalize packageOf (representative cluster) = package
    generalize (if Name.snakeCase (representative cluster).name = "" then defaultModule
      else Name.snakeCase (representative cluster).name) = name
    have hfree := Name.key_unique_not_mem name ((taken.lookup package).getD [])
    generalize (Name.unique name ((taken.lookup package).getD [])).1 = given at hfree
    obtain ⟨hlater, hpairwise⟩ :=
      ih ((package, Name.key given :: (taken.lookup package).getD []) :: taken)
    -- the keys taken in a package are those taken before and the one just given
    have hkey : ∀ m ∈ clusterModules packageOf clusters
        ((package, Name.key given :: (taken.lookup package).getD []) :: taken),
        Name.key m.name ∉ (taken.lookup m.package).getD [] ∧
          (package = m.package → Name.key given ≠ Name.key m.name) := by
      intro m hm
      have hnot := hlater m hm
      rw [List.lookup_cons] at hnot
      by_cases hpackage : m.package = package
      · rw [hpackage, beq_self_eq_true] at hnot
        obtain ⟨hne, hnot⟩ := not_or.mp (List.mem_cons.not.mp hnot)
        exact ⟨hpackage ▸ hnot, fun _ => Ne.symm hne⟩
      · rw [beq_false_of_ne hpackage] at hnot
        exact ⟨hnot, fun heq => absurd heq.symm hpackage⟩
    exact ⟨List.forall_mem_cons.mpr ⟨hfree, fun m hm => (hkey m hm).1⟩,
      List.pairwise_cons.mpr ⟨fun m hm => (hkey m hm).2, hpairwise⟩⟩

theorem ModuleId.path_inj {m m' : ModuleId} (hm : Name.Segment m.name) (hm' : Name.Segment m'.name)
    (hpath : m.path = m'.path) : m = m' := by
  have hpackage := congrArg ModulePath.parent hpath
  have hname := congrArg ModulePath.base hpath
  rw [path, path, ModulePath.parent_join hm, ModulePath.parent_join hm'] at hpackage
  rw [path, path, ModulePath.base_join hm, ModulePath.base_join hm'] at hname
  cases m
  cases m'
  simp_all

theorem length_clusterModules (packageOf : SchemaType → String) (clusters : List (List SchemaType))
    (taken : List (String × List String)) :
    (clusterModules packageOf clusters taken).length = clusters.length := by
  induction clusters generalizing taken with
  | nil => rfl
  | cons cluster clusters ih => exact congrArg (· + 1) (ih _)

/-- Clusters have modules of different paths. -/
theorem path_ne_of_clusterModules (packageOf : SchemaType → String)
    (typesOf : List Nat → List SchemaType) (clusters : List (List Nat)) :
    (clusters.zip (clusterModules packageOf (clusters.map typesOf) [])).Pairwise fun p p' =>
      p.2.path ≠ p'.2.path := by
  have hsegment := Store.package_of_mem_clusterModules packageOf typesOf clusters []
  have hapart := (clusterModules_apart packageOf (clusters.map typesOf) []).2
  have hlength := length_clusterModules packageOf (clusters.map typesOf) []
  generalize clusterModules packageOf (clusters.map typesOf) [] = modules at *
  rw [List.length_map] at hlength
  rw [← List.map_snd_zip (Nat.le_of_eq hlength), List.pairwise_map] at hapart
  refine hapart.imp_of_mem fun {p p'} hp hp' hkey hpath => ?_
  have heq := ModuleId.path_inj (hsegment p hp).2 (hsegment p' hp').2 hpath
  exact hkey (by rw [heq]) (by rw [heq])

namespace Store

/-- Two roots are in one module exactly when each leads to the other. -/
def Clustered (s : Store) (moduleOf : Entry → ModuleId) : Prop :=
  ∀ e ∈ s.roots, ∀ e' ∈ s.roots, ((moduleOf e).path = (moduleOf e').path ↔ Mutual s.Uses e e')

/-- Clusters share out the roots. -/
theorem exists_modules_designateClusters (hkeys : (s.roots.map (·.key)).Nodup)
    (hhandles : s.handles.Nodup) (packageOf : SchemaType → String) :
    ∃ moduleOf : Entry → ModuleId,
      (s.designateClusters s.rootGraph.components packageOf).roots =
        s.roots.map (fun e => { e with type := e.type.setModule (moduleOf e) }) ∧
      s.Clustered moduleOf := by
  have hroots := roots_designateClusters s s.rootGraph.components packageOf
  have hclusters := map_fst_zip_clusterModules packageOf s.typesOf s.rootGraph.components []
  have hpaths := path_ne_of_clusterModules packageOf s.typesOf s.rootGraph.components
  generalize s.rootGraph.components.zip _ = ps at hroots hclusters hpaths
  have hdisjoint := (rootGraph_represents hhandles).sound.components_disjoint
  rw [← hclusters, List.pairwise_map] at hdisjoint
  choose! p hp hmem hhouse using fun e (he : e ∈ s.roots) => exists_house hclusters (exists_cluster he)
  have hcluster : ∀ e ∈ s.roots, (p e).1 ∈ s.rootGraph.components :=
    fun e he => hclusters ▸ List.mem_map_of_mem (hp e he)
  refine ⟨fun e => (p e).2, hroots.trans (List.map_congr_left hhouse), fun e he e' he' => ?_⟩
  rw [← mem_cluster_iff hkeys hhandles (hcluster e he) he (hmem e he) he']
  constructor
  · intro hpath
    by_contra hnot
    have hne : p e ≠ p e' := fun heq => hnot (heq ▸ hmem e' he')
    have hsymm : Std.Symm fun p p' : List Nat × ModuleId => p.2.path ≠ p'.2.path := ⟨fun _ _ => Ne.symm⟩
    exact hpaths.forall (hp e he) (hp e' he') hne hpath
  · intro hmem'
    by_contra hpath
    have hne : p e ≠ p e' := fun heq => hpath (congrArg (fun p => p.2.path) heq)
    have hsymm : Std.Symm fun p p' : List Nat × ModuleId => p.1.Disjoint p'.1 :=
      ⟨fun _ _ hab _ ha hb => hab hb ha⟩
    exact hdisjoint.forall (hp e he) (hp e' he') hne hmem' (hmem e' he')

end Store

-- ---------------------------------------------------------------------------
-- Roots in modules
-- ---------------------------------------------------------------------------

theorem shallow_setModule (m : ModuleId) : Shallow (·.setModule m) :=
  ⟨fun _ => rfl, fun _ _ => rfl⟩

/-- A root with all that is nested in it in a module. -/
def Entry.placed (e : Entry) (m : ModuleId) : Entry :=
  { e with type := e.type.mapTree (·.setModule m) }

theorem Entry.modulePath_placed (e : Entry) (m : ModuleId) : (e.placed m).type.modulePath = m.path := by
  rw [placed, (shallow_setModule m).mapTree_eq_withInner]
  rfl

theorem refers_setModule_iff {m : ModuleId} {ft : FieldType} :
    (t.mapTree (·.setModule m)).Refers ft ↔ t.Refers ft := by
  have hdeclares : ∀ u : SchemaType, (u.mapTree (·.setModule m)).Declares ft ↔ u.Declares ft := by
    intro u
    rw [(shallow_setModule m).mapTree_eq_withInner]
    rfl
  simp only [Refers, (shallow_setModule m).within_mapTree_iff, exists_exists_and_eq_and, hdeclares]

theorem uses_placed_iff {m m' : ModuleId} :
    (e.placed m).type.Uses (e'.placed m').type ↔ e.type.Uses e'.type := by
  simp only [Uses, Entry.placed, refers_setModule_iff, ← SchemaType.mem_handles_iff,
    (shallow_setModule m').handles_mapTree]

namespace Store

variable {s' : Store} {moduleOf : Entry → ModuleId}

/-- The roots, each with all that is nested in it in the module that a function gives it, and otherwise
as they were. -/
def Places (s : Store) (moduleOf : Entry → ModuleId) (s' : Store) : Prop :=
  s'.roots = s.roots.map fun e => e.placed (moduleOf e)

namespace Places

theorem keys (hs' : s.Places moduleOf s') : s'.roots.map (·.key) = s.roots.map (·.key) := by
  rw [hs', List.map_map]
  rfl

theorem uses_iff (hs' : s.Places moduleOf s') {a b : Entry} : s'.Uses a b ↔
    ∃ e e', s.Uses e e' ∧ e.placed (moduleOf e) = a ∧ e'.placed (moduleOf e') = b := by
  unfold Store.Uses
  rw [hs', List.mem_map, List.mem_map]
  constructor
  · rintro ⟨⟨e, he, rfl⟩, ⟨e', he', rfl⟩, huses⟩
    exact ⟨e, e', ⟨he, he', uses_placed_iff.mp huses⟩, rfl, rfl⟩
  · rintro ⟨e, e', ⟨he, he', huses⟩, rfl, rfl⟩
    exact ⟨⟨e, he, rfl⟩, ⟨e', he', rfl⟩, uses_placed_iff.mpr huses⟩

/-- Which roots lead to each other is no matter of their modules. -/
theorem mutual_iff (hs' : s.Places moduleOf s') (hkeys : (s.roots.map (·.key)).Nodup)
    (he : e ∈ s.roots) (he' : e' ∈ s.roots) :
    Mutual s'.Uses (e.placed (moduleOf e)) (e'.placed (moduleOf e')) ↔ Mutual s.Uses e e' := by
  have hedges : (fun a b => ∃ e e', s'.Uses e e' ∧ e.key = a ∧ e'.key = b) =
      fun a b => ∃ e e', s.Uses e e' ∧ e.key = a ∧ e'.key = b := by
    funext a b
    simp only [hs'.uses_iff, eq_iff_iff]
    constructor
    · rintro ⟨_, _, ⟨e, e', huses, rfl, rfl⟩, rfl, rfl⟩
      exact ⟨e, e', huses, rfl, rfl⟩
    · rintro ⟨e, e', huses, rfl, rfl⟩
      exact ⟨_, _, ⟨e, e', huses, rfl, rfl⟩, rfl, rfl⟩
  have hkeys' : (s'.roots.map (·.key)).Nodup := hs'.keys ▸ hkeys
  have hmem : ∀ {e}, e ∈ s.roots → e.placed (moduleOf e) ∈ s'.roots :=
    fun he => hs' ▸ List.mem_map_of_mem he
  have hways : ∀ {e e'}, e ∈ s.roots → e' ∈ s.roots →
      (ReflTransGen s'.Uses (e.placed (moduleOf e)) (e'.placed (moduleOf e')) ↔ ReflTransGen s.Uses e e') := by
    intro e e' he he'
    rw [← reflTransGen_key_iff hkeys' (hmem he) (hmem he'), hedges]
    exact reflTransGen_key_iff hkeys he he'
  exact and_congr (hways he he') (hways he' he)

/-- A root, with all that is nested in it, is in the module that the function gives the root it was. -/
theorem exists_module (hs' : s.Places moduleOf s') (he : e ∈ s'.roots) :
    ∃ e₀ ∈ s.roots, ∀ u, Within u e.type → u.package = (moduleOf e₀).package ∧ u.moduleName = (moduleOf e₀).name := by
  rw [hs'] at he
  obtain ⟨e₀, he₀, rfl⟩ := List.mem_map.mp he
  refine ⟨e₀, he₀, fun u hu => ?_⟩
  obtain ⟨v, -, rfl⟩ := (shallow_setModule _).within_mapTree_iff.mp hu
  rw [(shallow_setModule _).mapTree_eq_withInner]
  exact ⟨rfl, rfl⟩

/-- What is nested in a root is in its module. -/
theorem inner (hs' : s.Places moduleOf s') {u : SchemaType} (he : e ∈ s'.roots) (hu : Within u e.type) :
    u.package = e.type.package ∧ u.moduleName = e.type.moduleName := by
  obtain ⟨e₀, -, hmodule⟩ := hs'.exists_module he
  have hroot := hmodule e.type .self
  exact ⟨(hmodule u hu).1.trans hroot.1.symm, (hmodule u hu).2.trans hroot.2.symm⟩

end Places

theorem places_inheritModules {moduleOf : Entry → ModuleId}
    (hroots : s'.roots = s.roots.map fun e => { e with type := e.type.setModule (moduleOf e) }) :
    s.Places moduleOf s'.inheritModules := by
  unfold Places inheritModules
  dsimp only
  rw [hroots, List.map_map]
  refine List.map_congr_left fun e _ => ?_
  simp only [Function.comp_apply, Entry.placed]
  rw [(shallow_setModule _).mapTree_eq_withInner, (shallow_setModule _).mapTree_eq_withInner]
  rfl

-- ---------------------------------------------------------------------------
-- Checks of clusters
-- ---------------------------------------------------------------------------

/-- A check of every cluster against its first type is a check of all roots that lead to each other. -/
theorem forall_clusters_iff {β : Type} (hkeys : (s.roots.map (·.key)).Nodup)
    (hhandles : s.handles.Nodup) (f : SchemaType → β) (change : Entry → Entry)
    (hchange : ∀ e, (change e).key = e.key) (hroots : s'.roots = s.roots.map change) :
    (∀ ts ∈ s.rootGraph.components.map s'.typesOf, ∀ t ∈ ts, f t = f (ts.headD {})) ↔
      ∀ e ∈ s.roots, ∀ e' ∈ s.roots, Mutual s.Uses e e' → f (change e).type = f (change e').type := by
  have hkeys' : (s'.roots.map (·.key)).Nodup := by
    rw [hroots, List.map_map]
    exact (congrArg List.Nodup (List.map_congr_left fun e _ => hchange e)).mpr hkeys
  have hmem : ∀ c ∈ s.rootGraph.components, ∀ t, t ∈ s'.typesOf c ↔
      ∃ e ∈ s.roots, e.key ∈ c ∧ (change e).type = t := by
    intro c hc t
    rw [typesOf, filterMap_typeOfKey? hkeys' fun k hk => ?_, hroots]
    · simp only [List.mem_map, exists_exists_and_eq_and, hchange]
    · obtain ⟨e, he, rfl⟩ := exists_root_of_mem_cluster hhandles hc k hk
      exact ⟨change e, hroots ▸ List.mem_map_of_mem he, hchange e⟩
  constructor
  · intro hall e he e' he' hmutual
    obtain ⟨c, hc, hec⟩ := exists_cluster he
    have hec' := (mem_cluster_iff hkeys hhandles hc he hec he').mpr hmutual
    have hhead := hall _ (List.mem_map_of_mem hc)
    exact (hhead _ ((hmem c hc _).mpr ⟨e, he, hec, rfl⟩)).trans
      (hhead _ ((hmem c hc _).mpr ⟨e', he', hec', rfl⟩)).symm
  · intro hall ts hts t ht
    obtain ⟨c, hc, rfl⟩ := List.mem_map.mp hts
    have hhead : (s'.typesOf c).headD {} ∈ s'.typesOf c := by
      cases hlist : s'.typesOf c with
      | nil => exact absurd (hlist ▸ ht) List.not_mem_nil
      | cons u us => exact List.mem_cons_self
    obtain ⟨e, he, hec, rfl⟩ := (hmem c hc t).mp ht
    obtain ⟨e', he', hec', heq⟩ := (hmem c hc _).mp hhead
    rw [← heq]
    exact hall e he e' he' ((mem_cluster_iff hkeys hhandles hc he hec he').mp hec')

/-- Roots of different namespaces lead to each other. -/
def MixesNamespaces (s : Store) : Prop :=
  ∃ e ∈ s.roots, ∃ e' ∈ s.roots, Mutual s.Uses e e' ∧ e.type.ns ≠ e'.type.ns

theorem mixedCluster?_eq_none_iff (hkeys : (s.roots.map (·.key)).Nodup) (hhandles : s.handles.Nodup) :
    mixedCluster? (s.rootGraph.components.map s.typesOf) = none ↔ ¬ s.MixesNamespaces := by
  have hroots : s.roots = s.roots.map fun e => e := (List.map_id' _).symm
  have hchecks := forall_clusters_iff hkeys hhandles (fun t => t.ns) (fun e => e) (fun _ => rfl) hroots
  simp only [mixedCluster?, List.find?_eq_none, Bool.not_eq_true, List.any_eq_false, bne_eq_false_iff_eq,
    hchecks, MixesNamespaces, not_exists, not_and, not_not]

theorem splitCluster?_eq_none_iff (hkeys : (s.roots.map (·.key)).Nodup) (hhandles : s.handles.Nodup)
    (hs' : s.Places moduleOf s') :
    splitCluster? (s.rootGraph.components.map s'.typesOf) = none ↔
      ∀ e ∈ s.roots, ∀ e' ∈ s.roots, Mutual s.Uses e e' → (moduleOf e).path = (moduleOf e').path := by
  have hchecks := forall_clusters_iff hkeys hhandles (fun t => t.modulePath)
    (fun e => e.placed (moduleOf e)) (fun _ => rfl) hs'
  simp only [Entry.modulePath_placed] at hchecks
  simp only [splitCluster?, List.findSome?_eq_none_iff, Option.map_eq_none_iff, List.find?_eq_none,
    Bool.not_eq_true, bne_eq_false_iff_eq, hchecks]

end Store

/-- The failure reports modules that depend on each other in a circle. -/
def Failure.ReportsCircle (f : Failure) : Prop :=
  ∃ e, f.cause = .compile e ∧ e.rule = .circularModules

theorem reportsCircle_of_splitCluster? {clusters : List (List SchemaType)} {f : Failure}
    (hf : splitCluster? clusters = some f) : f.ReportsCircle := by
  obtain ⟨cluster, -, hcluster⟩ := List.exists_of_findSome?_eq_some hf
  obtain ⟨t, -, rfl⟩ := Option.map_eq_some_iff.mp hcluster
  exact ⟨_, rfl, rfl⟩

-- ---------------------------------------------------------------------------
-- Designation
-- ---------------------------------------------------------------------------

namespace Store

/-- The modules that the layout asks for. -/
def LaidOut (s : Store) (moduleOf : Entry → ModuleId) : Prop :=
  match s.config.output.layout with
  | .single => ∀ e ∈ s.roots, moduleOf e = .ofPath s.config.output.package
  | .clusters => s.Clustered moduleOf
  | .namespaceClusters => s.Clustered moduleOf ∧ ¬ s.MixesNamespaces
  | .filenames | .namespaces => ∀ e ∈ s.roots, (moduleOf e).path = s.scopeOf e

end Store

theorem laidOut_designateRoots (hkeys : (s.roots.map (·.key)).Nodup) (hhandles : s.handles.Nodup) :
    wp (designateRoots s.rootGraph.components)
      (fun _ s' => ∃ moduleOf, s.LaidOut moduleOf ∧
        s'.roots = s.roots.map fun e => { e with type := e.type.setModule (moduleOf e) })
      (fun f _ => f.ReportsCircle ∧ s.config.output.layout = .namespaceClusters ∧ s.MixesNamespaces) s := by
  unfold designateRoots
  rw [wp_bind, wp_get]
  dsimp only
  split
  case h_1 hlayout =>
    refine wp_set.mpr ⟨fun _ => .ofPath s.config.output.package, ?_, rfl⟩
    simp only [Store.LaidOut, hlayout, implies_true]
  case h_2 hlayout =>
    obtain ⟨moduleOf, hroots, hclustered⟩ := Store.exists_modules_designateClusters hkeys hhandles
      fun _ => s.config.output.package
    refine wp_set.mpr ⟨moduleOf, ?_, hroots⟩
    simpa only [Store.LaidOut, hlayout] using hclustered
  case h_3 hlayout =>
    split
    case h_1 cluster hmixed =>
      refine wp_throw.mpr ⟨⟨_, rfl, rfl⟩, hlayout, ?_⟩
      by_contra hnone
      rw [(Store.mixedCluster?_eq_none_iff hkeys hhandles).mpr hnone] at hmixed
      cases hmixed
    case h_2 hmixed =>
      obtain ⟨moduleOf, hroots, hclustered⟩ := Store.exists_modules_designateClusters hkeys hhandles
        fun t => namespacePackage s.config.output.package t.ns
      refine wp_set.mpr ⟨moduleOf, ?_, hroots⟩
      simp only [Store.LaidOut, hlayout]
      exact ⟨hclustered, (Store.mixedCluster?_eq_none_iff hkeys hhandles).mp hmixed⟩
  case h_4 hlayout =>
    refine wp_set.mpr ⟨fun e => locationModule s.config.output.package (sharedDirectories s.types)
      e.type.location, ?_, rfl⟩
    simp only [Store.LaidOut, Store.scopeOf, OutputConfig.scope, hlayout, implies_true]
  case h_5 hlayout =>
    refine wp_set.mpr ⟨fun e => namespaceModule s.config.output.package e.type.ns, ?_, rfl⟩
    simp only [Store.LaidOut, Store.scopeOf, OutputConfig.scope, hlayout, implies_true]

/-- Designation puts the roots into the modules of the layout, unless roots that lead to each other
would be in different modules or, by clusters in their namespaces, are of different namespaces. -/
theorem laidOut_designate (hkeys : (s.roots.map (·.key)).Nodup) (hhandles : s.handles.Nodup) :
    wp designate
      (fun _ s' => ∃ moduleOf, s.LaidOut moduleOf ∧ s.Places moduleOf s' ∧
        ∀ e ∈ s.roots, ∀ e' ∈ s.roots, Mutual s.Uses e e' → (moduleOf e).path = (moduleOf e').path)
      (fun f _ => f.ReportsCircle ∧
        (s.config.output.layout = .namespaceClusters ∧ s.MixesNamespaces ∨
          ∃ moduleOf, s.LaidOut moduleOf ∧ ∃ e ∈ s.roots, ∃ e' ∈ s.roots,
            Mutual s.Uses e e' ∧ (moduleOf e).path ≠ (moduleOf e').path)) s := by
  unfold designate
  rw [wp_bind, wp_get, wp_bind]
  refine wp_mono (laidOut_designateRoots hkeys hhandles) ?_ fun f _ hf => ⟨hf.1, .inl hf.2⟩
  rintro _ s₁ ⟨moduleOf, hlaid, hroots⟩
  rw [wp_bind, wp_modify, wp_bind, wp_get]
  have hplaces := Store.places_inheritModules hroots
  have hsplit := Store.splitCluster?_eq_none_iff hkeys hhandles hplaces
  split
  case h_1 f hf =>
    refine wp_throw.mpr ⟨reportsCircle_of_splitCluster? hf, .inr ⟨moduleOf, hlaid, ?_⟩⟩
    by_contra hnone
    simp only [not_exists, not_and, not_not] at hnone
    rw [hsplit.mpr fun e he e' he' => hnone e he e' he'] at hf
    cases hf
  case h_2 hnone => exact wp_pure.mpr ⟨moduleOf, hlaid, hplaces, hsplit.mp hnone⟩

/-- Designation by clusters is exact: it fails for nothing but roots of different namespaces that lead
to each other, and for those only where clusters are in the packages of their namespaces. Otherwise two
roots are in one module exactly when each leads to the other, and all that is nested in a root is in
its module. -/
theorem designate_clusters_exact (hkeys : (s.roots.map (·.key)).Nodup) (hhandles : s.handles.Nodup)
    (hlayout : s.config.output.layout = .clusters ∨ s.config.output.layout = .namespaceClusters) :
    wp designate
      (fun _ s' => ¬ (s.config.output.layout = .namespaceClusters ∧ s.MixesNamespaces) ∧
        (∃ moduleOf, s.Places moduleOf s') ∧
        (∀ e ∈ s'.roots, ∀ e' ∈ s'.roots,
          (e.type.modulePath = e'.type.modulePath ↔ Mutual s'.Uses e e')) ∧
        ∀ e ∈ s'.roots, ∀ u, Within u e.type →
          u.package = e.type.package ∧ u.moduleName = e.type.moduleName)
      (fun f _ => f.ReportsCircle ∧ s.config.output.layout = .namespaceClusters ∧ s.MixesNamespaces) s := by
  have hclustered : ∀ moduleOf, s.LaidOut moduleOf → s.Clustered moduleOf ∧
      ¬ (s.config.output.layout = .namespaceClusters ∧ s.MixesNamespaces) := by
    intro moduleOf hlaid
    rcases hlayout with hlayout | hlayout
    · simp only [Store.LaidOut, hlayout] at hlaid
      exact ⟨hlaid, fun hmixed => nomatch hlayout.symm.trans hmixed.1⟩
    · simp only [Store.LaidOut, hlayout] at hlaid
      exact ⟨hlaid.1, fun hmixed => hlaid.2 hmixed.2⟩
  refine wp_mono (laidOut_designate hkeys hhandles) ?_ ?_
  · rintro _ s' ⟨moduleOf, hlaid, hplaces, -⟩
    obtain ⟨hexact, hunmixed⟩ := hclustered moduleOf hlaid
    refine ⟨hunmixed, ⟨moduleOf, hplaces⟩, fun a ha b hb => ?_, fun e he u hu => hplaces.inner he hu⟩
    rw [hplaces] at ha hb
    obtain ⟨e, he, rfl⟩ := List.mem_map.mp ha
    obtain ⟨e', he', rfl⟩ := List.mem_map.mp hb
    rw [e.modulePath_placed, e'.modulePath_placed, hplaces.mutual_iff hkeys he he']
    exact hexact e he e' he'
  · rintro f _ ⟨hreports, hmixed | ⟨moduleOf, hlaid, e, he, e', he', hmutual, hpath⟩⟩
    · exact ⟨hreports, hmixed⟩
    · exact absurd (((hclustered moduleOf hlaid).1 e he e' he').mpr hmutual) hpath

namespace Coupled

/-- The first two roots lead to each other, the first one by what is nested in it. The third root has a
name of the same key as theirs has, and the fourth is of another namespace. -/
def store : Store :=
  ({ config := { output := { layout := .namespaceClusters } } } : Store).insertAll [
    { qname := ⟨"urn:x", "Beta"⟩, tag := .complexType
      inner := [{
        qname := ⟨"urn:x", "part"⟩, tag := .complexType
        fields := [{ name := "a", types := [{ qname := ⟨"urn:x", "Alpha"⟩, reference := 3 }] }] }] },
    { qname := ⟨"urn:x", "Alpha"⟩, tag := .element
      fields := [{ name := "b", types := [{ qname := ⟨"urn:x", "Beta"⟩, reference := 1 }] }] },
    { qname := ⟨"urn:x", "alpha"⟩, tag := .complexType
      fields := [{ name := "b", types := [{ qname := ⟨"urn:x", "Beta"⟩, reference := 1 }] }] },
    { qname := ⟨"urn:y", "Alpha"⟩, tag := .complexType }]

theorem designate_clusters :
    wp designate (fun _ s' => s'.types.map (·.modulePath) =
      ["generated.x.alpha", "generated.x.alpha", "generated.x.alpha_1", "generated.y.alpha"])
      (fun _ _ => False) store ∧
    wp designate
      (fun _ s' => ¬ (store.config.output.layout = .namespaceClusters ∧ store.MixesNamespaces) ∧
        (∃ moduleOf, store.Places moduleOf s') ∧
        (∀ e ∈ s'.roots, ∀ e' ∈ s'.roots,
          (e.type.modulePath = e'.type.modulePath ↔ Mutual s'.Uses e e')) ∧
        ∀ e ∈ s'.roots, ∀ u, Within u e.type →
          u.package = e.type.package ∧ u.moduleName = e.type.moduleName)
      (fun f _ => f.ReportsCircle ∧ store.config.output.layout = .namespaceClusters ∧
        store.MixesNamespaces) store := by
  have hsound : store.Sound := .insertAll (.empty _) (.empty _) (by decide)
  exact ⟨by decide +kernel, designate_clusters_exact hsound.keys hsound.handles (.inr rfl)⟩

end Coupled

end Schemata
