import Schemata.Output.Imports
import Schemata.Output.Resolution
import Schemata.Proofs.Digraph.Keyed
import Schemata.Proofs.Lists
import Schemata.Proofs.Model.Trees

/-!
# What the resolution of a module yields

The graph of a module stands for the relation "depends on, by a reference that is not circular".
Resolution fails on a repeated name, on a cycle of this relation through two or more names, and on a
name that no module defines, in this order. Otherwise it lists the types in the order of the relation
and imports every name that is needed and not defined.

Giving aliases to imports changes nothing but their aliases: the imported names and the modules that
they come from stay as they are, in the same order.
-/

-- ---------------------------------------------------------------------------
-- Aliases
-- ---------------------------------------------------------------------------

namespace Schemata

/-- What an import is about, whatever it is called. -/
def Import.target (i : Import) : QName × String :=
  (i.qname, i.source)

namespace Imports

/-- A change of one import that keeps what it is about. -/
theorem map_target_modify {g : Import → Import} (hg : ∀ i, (g i).target = i.target)
    (imports : List Import) (n : Nat) :
    (imports.modify n g).map Import.target = imports.map Import.target := by
  induction imports generalizing n with
  | nil => simp
  | cons i imports ih =>
    cases n with
    | zero => simp [hg]
    | succ n => simp [ih]

/-- Changes that each keep what the imports are about keep it together. -/
theorem map_target_foldl {α : Type} {step : List Import → α → List Import}
    (hstep : ∀ imports a, (step imports a).map Import.target = imports.map Import.target)
    (items : List α) (imports : List Import) :
    (items.foldl step imports).map Import.target = imports.map Import.target := by
  induction items generalizing imports with
  | nil => rfl
  | cons a items ih => rw [List.foldl_cons, ih, hstep]

theorem map_target_aliasGroup (imports : List Import) (places : List Nat) :
    (aliasGroup imports places).map Import.target = imports.map Import.target := by
  refine map_target_foldl (fun imports place => ?_) _ imports
  apply map_target_modify
  intro i
  rfl

theorem map_target_aliasSingle (imports : List Import) (n : Nat) :
    (aliasSingle imports n).map Import.target = imports.map Import.target := by
  apply map_target_modify
  intro i
  rfl

theorem map_target_giveAliases (reserved : List String) (imports : List Import) :
    (giveAliases reserved imports).map Import.target = imports.map Import.target := by
  refine map_target_foldl (fun imports key => ?_) _ imports
  dsimp only
  split
  · split
    · exact map_target_aliasSingle imports _
    · rfl
  · exact map_target_aliasGroup imports _

theorem map_target_separateAliases (reserved : List String) (imports : List Import) :
    (separateAliases reserved imports).map Import.target = imports.map Import.target := by
  induction imports generalizing reserved with
  | nil => rfl
  | cons i imports ih =>
    unfold separateAliases
    split
    · rw [List.map_cons, List.map_cons, ih]
    · split
      · rw [List.map_cons, List.map_cons, ih]
        rfl
      · rw [List.map_cons, List.map_cons, ih]

theorem map_target_resolveConflicts (imports : List Import) (protectedNames : List String) :
    (resolveConflicts imports protectedNames).map Import.target = imports.map Import.target := by
  unfold resolveConflicts
  rw [map_target_separateAliases, map_target_giveAliases]

end Imports

end Schemata

-- ---------------------------------------------------------------------------
-- What is resolved
-- ---------------------------------------------------------------------------

namespace Schemata

open Relation

variable {t : SchemaType} {q : QName} {types : List SchemaType} {registry : Registry}

-- ---------------------------------------------------------------------------
-- Dependencies
-- ---------------------------------------------------------------------------

/-- The type or one nested in it refers to a name outside its tree. -/
def SchemaType.DependsOn (t : SchemaType) (q : QName) : Prop :=
  ∃ ft, t.Refers ft ∧ ft.isDependency = true ∧ ft.qname = q

/-- The same by a reference that bears on the order. -/
def SchemaType.OrderedAfter (t : SchemaType) (q : QName) : Prop :=
  ∃ ft, t.Refers ft ∧ ft.isDependency = true ∧ ft.circular = false ∧ ft.qname = q

theorem mem_dependencies_false_iff : q ∈ t.dependencies false ↔ t.DependsOn q := by
  simp only [SchemaType.dependencies, SchemaType.DependsOn, List.mem_eraseDups, List.mem_map,
    List.mem_filter, SchemaType.mem_flatMap_fieldTypes_iff, Bool.false_and, Bool.not_false,
    Bool.and_true, and_assoc]

theorem mem_dependencies_true_iff : q ∈ t.dependencies true ↔ t.OrderedAfter q := by
  simp only [SchemaType.dependencies, SchemaType.OrderedAfter, List.mem_eraseDups, List.mem_map,
    List.mem_filter, SchemaType.mem_flatMap_fieldTypes_iff, Bool.true_and, Bool.and_eq_true,
    Bool.not_eq_true', and_assoc]

theorem SchemaType.OrderedAfter.dependsOn (h : t.OrderedAfter q) : t.DependsOn q := by
  obtain ⟨ft, href, hdep, -, hq⟩ := h
  exact ⟨ft, href, hdep, hq⟩

/-- The names that a module defines or depends on. -/
def Mentioned (types : List SchemaType) (q : QName) : Prop :=
  ∃ t ∈ types, t.qname = q ∨ t.DependsOn q

/-- One name of a module comes after another. -/
def NameAfter (types : List SchemaType) (a b : QName) : Prop :=
  ∃ t ∈ types, t.qname = a ∧ t.OrderedAfter b

theorem foldl_addDependencies_represents (types : List SchemaType) {g : KeyedGraph QName}
    {V : QName → Prop} {E : QName → QName → Prop} (h : g.Represents V E)
    (hV : ∀ t ∈ types, V t.qname) :
    (types.foldl (fun g t =>
      let g := (t.dependencies false).foldl KeyedGraph.addNode g
      (t.dependencies true).foldl (fun g q => g.addEdge t.qname q) g) g).Represents
      (fun q => V q ∨ ∃ t ∈ types, t.DependsOn q) (fun a b => E a b ∨ NameAfter types a b) := by
  induction types generalizing g V E with
  | nil => exact h.congr (by simp) (by simp [NameAfter])
  | cons t types ih =>
    have ht : V t.qname := hV t List.mem_cons_self
    have hstep := (h.addNodes (t.dependencies false)).addEdges (.inl ht) (t.dependencies true)
    refine (ih hstep fun u hu => .inl (.inl (hV u (List.mem_cons_of_mem _ hu)))).congr
      (fun q => ?_) fun a b => ?_
    · simp only [mem_dependencies_false_iff, mem_dependencies_true_iff, List.mem_cons,
        exists_eq_or_imp]
      have := SchemaType.OrderedAfter.dependsOn (t := t) (q := q)
      tauto
    · simp only [NameAfter, mem_dependencies_true_iff, List.mem_cons, exists_eq_or_imp,
        eq_comm (a := a), or_assoc]

theorem dependencyGraph_represents (types : List SchemaType) :
    (dependencyGraph types).Represents (Mentioned types) (NameAfter types) := by
  have hnodes := KeyedGraph.Represents.empty.addNodes (types.map (·.qname))
  rw [List.foldl_map] at hnodes
  refine (foldl_addDependencies_represents types hnodes fun t ht => ?_).congr
    (fun q => ?_) fun a b => ?_
  · exact .inr (List.mem_map_of_mem ht)
  · simp only [Mentioned, false_or, List.mem_map, and_or_left, exists_or]
  · simp only [false_or]

-- ---------------------------------------------------------------------------
-- The parts of a resolution
-- ---------------------------------------------------------------------------

theorem firstRepeated?_eq_none_iff {seen names : List QName} :
    firstRepeated? seen names = none ↔ names.Nodup ∧ ∀ q ∈ names, q ∉ seen := by
  induction names generalizing seen with
  | nil => simp [firstRepeated?]
  | cons q names ih =>
    simp only [firstRepeated?, List.nodup_cons, List.mem_cons, forall_eq_or_imp]
    split
    case isTrue h => simp [h]
    case isFalse h =>
      rw [ih]
      simp only [List.mem_cons, not_or]
      grind

theorem Registry.source?_eq_none_iff {registry : Registry} :
    registry.source? q = none ↔ ∀ source, (q, source) ∉ registry := by
  simp only [source?, List.lookup_eq_none_iff, List.mem_reverse, bne_iff_ne]
  constructor
  · exact fun h source hmem => h (q, source) hmem rfl
  · rintro h ⟨_, source⟩ hmem rfl
    exact h source hmem

theorem locateImports_eq_ok {names : List QName} {imports : List Import}
    (h : locateImports registry names = .ok imports) :
    imports.map (·.qname) = names ∧ ∀ i ∈ imports, registry.source? i.qname = some i.source := by
  induction names generalizing imports with
  | nil =>
    obtain rfl : [] = imports := Except.ok.inj h
    simp
  | cons q names ih =>
    rw [locateImports] at h
    split at h
    case h_1 => cases h
    case h_2 source hsource =>
      cases hrest : locateImports registry names with
      | error e =>
        rw [hrest] at h
        cases h
      | ok rest =>
        rw [hrest] at h
        obtain rfl : { qname := q, source } :: rest = imports := Except.ok.inj h
        obtain ⟨hnames, hlocated⟩ := ih hrest
        refine ⟨by simp [hnames], fun i hi => ?_⟩
        obtain rfl | hi := List.mem_cons.mp hi
        · exact hsource
        · exact hlocated i hi

/-- The only failure of the last stage: a name that no module defines. -/
theorem locateImports_eq_error {names : List QName} {f : Failure}
    (h : locateImports registry names = .error f) :
    (∃ q ∈ names, registry.source? q = none) ∧
      ∃ detail qnames, f = .ofCompile .unresolvedReference detail qnames := by
  induction names with
  | nil => cases h
  | cons q names ih =>
    rw [locateImports] at h
    split at h
    case h_1 hunknown => exact ⟨⟨q, List.mem_cons_self, hunknown⟩, _, _, (Except.error.inj h).symm⟩
    case h_2 =>
      cases hrest : locateImports registry names with
      | error e =>
        rw [hrest] at h
        obtain rfl : e = f := Except.error.inj h
        obtain ⟨⟨q', hq', hunknown⟩, hfailure⟩ := ih hrest
        exact ⟨⟨q', List.mem_cons_of_mem _ hq', hunknown⟩, hfailure⟩
      | ok rest =>
        rw [hrest] at h
        cases h

-- ---------------------------------------------------------------------------
-- Resolution
-- ---------------------------------------------------------------------------

/-- What a resolution without failure consists of. -/
structure Resolved (registry : Registry) (types : List SchemaType) (r : Resolution) : Prop where
  names : (types.map (·.qname)).Nodup
  types_eq : r.types = types
  sorted : KeyedGraph.Sorted (Mentioned types) (NameAfter types) r.order
  imported : r.imports.map (·.qname) = r.importedNames
  located : ∀ i ∈ r.imports, registry.source? i.qname = some i.source

/-- A name that is needed is neither defined in the module nor known to the registry. -/
def LacksName (registry : Registry) (types : List SchemaType) : Prop :=
  ∃ q, (∃ t ∈ types, t.DependsOn q) ∧ (∀ t ∈ types, t.qname ≠ q) ∧
    ∀ source, (q, source) ∉ registry

/-- What a module needs and does not define is left over when its types are taken out of the order. -/
theorem mem_importedNames_iff {r : Resolution} (htypes : r.types = types)
    (hsorted : KeyedGraph.Sorted (Mentioned types) (NameAfter types) r.order) :
    q ∈ r.importedNames ↔ (∃ t ∈ types, t.DependsOn q) ∧ ∀ t ∈ types, t.qname ≠ q := by
  simp only [Resolution.importedNames, Resolution.defines, htypes, List.mem_filter,
    hsorted.mem_iff, Mentioned, Bool.not_eq_true', List.any_eq_false, beq_iff_eq]
  constructor
  · rintro ⟨⟨t, ht, hq | hq⟩, hundefined⟩
    · exact absurd hq (hundefined t ht)
    · exact ⟨⟨t, ht, hq⟩, hundefined⟩
  · rintro ⟨⟨t, ht, hq⟩, hundefined⟩
    exact ⟨⟨t, ht, .inr hq⟩, hundefined⟩

theorem located_resolveConflicts {imports : List Import} (protectedNames : List String)
    (h : ∀ i ∈ imports, registry.source? i.qname = some i.source) :
    ∀ i ∈ Imports.resolveConflicts imports protectedNames,
      registry.source? i.qname = some i.source := by
  intro i hi
  have hmem : i.target ∈ imports.map Import.target :=
    Imports.map_target_resolveConflicts imports protectedNames ▸ List.mem_map_of_mem hi
  obtain ⟨j, hj, hji⟩ := List.mem_map.mp hmem
  obtain ⟨hqname, hsource⟩ := Prod.mk.inj hji
  rw [← hqname, ← hsource]
  exact h j hj

theorem map_qname_resolveConflicts (imports : List Import) (protectedNames : List String) :
    (Imports.resolveConflicts imports protectedNames).map (·.qname) = imports.map (·.qname) := by
  have := congrArg (List.map Prod.fst) (Imports.map_target_resolveConflicts imports protectedNames)
  simpa [Import.target, Function.comp_def] using this

/-- The three failures of a resolution, and its success. -/
theorem resolveModule_cases (registry : Registry) (types : List SchemaType) :
    (¬ (types.map (·.qname)).Nodup ∧ ∃ detail qnames,
      (resolveModule registry types).2 = some (.ofCompile .duplicateType detail qnames)) ∨
    ((types.map (·.qname)).Nodup ∧ (∃ q, TransGen (fun a b => NameAfter types a b ∧ b ≠ a) q q) ∧
      ∃ detail qnames,
        (resolveModule registry types).2 = some (.ofCompile .dependencyCycle detail qnames)) ∨
    ((types.map (·.qname)).Nodup ∧ (¬ ∃ q, TransGen (fun a b => NameAfter types a b ∧ b ≠ a) q q) ∧
      (LacksName registry types ∧ (∃ detail qnames,
        (resolveModule registry types).2 = some (.ofCompile .unresolvedReference detail qnames)) ∨
      ((resolveModule registry types).2 = none ∧
        Resolved registry types (resolveModule registry types).1))) := by
  have hgraph := dependencyGraph_represents types
  have hcyclic := hgraph.sort_error_iff
  have hnames : firstRepeated? [] (types.map (·.qname)) = none ↔ (types.map (·.qname)).Nodup := by
    simp [firstRepeated?_eq_none_iff]
  unfold resolveModule Resolver.process
  dsimp only
  split
  case h_1 q hrepeated =>
    refine .inl ⟨fun hnodup => ?_, _, _, rfl⟩
    rw [hnames.mpr hnodup] at hrepeated
    cases hrepeated
  case h_2 hrepeated =>
    have hnodup := hnames.mp hrepeated
    split
    case h_1 e hsort => exact .inr (.inl ⟨hnodup, hcyclic.mp ⟨e, hsort⟩, _, _, rfl⟩)
    case h_2 order hsort =>
      refine .inr (.inr ⟨hnodup, fun hc => ?_, ?_⟩)
      · obtain ⟨e, he⟩ := hcyclic.mpr hc
        rw [he] at hsort
        cases hsort
      · split
        case h_1 f hlocate =>
          obtain ⟨⟨q, hq, hunknown⟩, detail, qnames, rfl⟩ := locateImports_eq_error hlocate
          obtain ⟨hneeded, hundefined⟩ := (mem_importedNames_iff rfl (hgraph.sorted hsort)).mp hq
          exact .inl ⟨⟨q, hneeded, hundefined, Registry.source?_eq_none_iff.mp hunknown⟩, _, _, rfl⟩
        case h_2 imports hlocate =>
          obtain ⟨hqnames, hlocated⟩ := locateImports_eq_ok hlocate
          refine .inr ⟨rfl, hnodup, rfl, hgraph.sorted hsort, ?_, ?_⟩
          · rw [map_qname_resolveConflicts, hqnames]
            rfl
          · exact located_resolveConflicts _ hlocated

theorem resolved_of_resolveModule {r : Resolution} (h : resolveModule registry types = (r, none)) :
    Resolved registry types r := by
  obtain ⟨-, _, _, heq⟩ | ⟨-, -, _, _, heq⟩ | ⟨-, -, ⟨-, _, _, heq⟩ | ⟨-, hres⟩⟩ :=
    resolveModule_cases registry types
  · rw [h] at heq
    cases heq
  · rw [h] at heq
    cases heq
  · rw [h] at heq
    cases heq
  · rw [h] at hres
    exact hres

-- ---------------------------------------------------------------------------
-- What is handed out
-- ---------------------------------------------------------------------------

namespace Resolved

variable {r : Resolution}

theorem mem_sortedTypes_iff (h : Resolved registry types r) : t ∈ r.sortedTypes ↔ t ∈ types := by
  simp only [Resolution.sortedTypes, List.mem_filterMap, h.types_eq, Lists.find?_key_eq_some_iff h.names,
    h.sorted.mem_iff]
  constructor
  · rintro ⟨_, -, ht, -⟩
    exact ht
  · intro ht
    exact ⟨t.qname, ⟨t, ht, .inl rfl⟩, ht, rfl⟩

/-- Every type of the module is listed once. -/
theorem sortedTypes_perm (h : Resolved registry types r) : r.sortedTypes.Perm types := by
  refine (List.perm_ext_iff_of_nodup ?_ h.names.of_map).mpr fun t => h.mem_sortedTypes_iff
  refine List.Nodup.filterMap (fun a b t ha hb => ?_) h.sorted.nodup
  rw [h.types_eq, Option.mem_def, Lists.find?_key_eq_some_iff h.names] at ha hb
  exact ha.2.symm.trans hb.2

/-- What a type needs first stands before it. -/
theorem mem_before (h : Resolved registry types r) {before after : List SchemaType} {u : SchemaType}
    (hsplit : r.sortedTypes = before ++ t :: after) (hu : u ∈ types) (hne : u ≠ t)
    (hafter : t.OrderedAfter u.qname) : u ∈ before := by
  have ht : t ∈ types := h.mem_sortedTypes_iff.mp (hsplit ▸ List.mem_append_right _ List.mem_cons_self)
  have hneq : u.qname ≠ t.qname := fun heq => hne (List.inj_on_of_nodup_map h.names hu ht heq)
  -- split the names where the types are split
  obtain ⟨front, back, horder, hfront, hback⟩ := List.filterMap_eq_append_iff.mp hsplit
  obtain ⟨skipped, q, rest, rfl, hskipped, hq, -⟩ := List.filterMap_eq_cons_iff.mp hback
  rw [h.types_eq, Lists.find?_key_eq_some_iff h.names] at hq
  obtain ⟨-, rfl⟩ := hq
  have hmem := h.sorted.needed (front ++ skipped) t.qname rest (by simp [horder]) u.qname
    ⟨t, ht, rfl, hafter⟩ hneq
  have hfind : r.types.find? (·.qname == u.qname) = some u := by
    rw [h.types_eq, Lists.find?_key_eq_some_iff h.names]
    exact ⟨hu, rfl⟩
  obtain hmem | hmem := List.mem_append.mp hmem
  · rw [← hfront]
    exact List.mem_filterMap.mpr ⟨u.qname, hmem, hfind⟩
  · rw [hskipped _ hmem] at hfind
    cases hfind

theorem imports_nodup (h : Resolved registry types r) : (r.imports.map (·.qname)).Nodup := by
  rw [h.imported]
  exact h.sorted.nodup.filter _

/-- A name is imported exactly when it is needed and not defined. -/
theorem mem_imports_iff (h : Resolved registry types r) :
    q ∈ r.imports.map (·.qname) ↔ (∃ t ∈ types, t.DependsOn q) ∧ ∀ t ∈ types, t.qname ≠ q := by
  rw [h.imported, mem_importedNames_iff h.types_eq h.sorted]

/-- Every name that is needed and not defined has been found in the registry. -/
theorem not_lacksName (h : Resolved registry types r) : ¬ LacksName registry types := by
  rintro ⟨q, hneeded, hundefined, hunknown⟩
  obtain ⟨i, hi, rfl⟩ := List.mem_map.mp (h.mem_imports_iff.mpr ⟨hneeded, hundefined⟩)
  have hsource := h.located i hi
  rw [Registry.source?_eq_none_iff.mpr hunknown] at hsource
  cases hsource

end Resolved

-- ---------------------------------------------------------------------------
-- Failures
-- ---------------------------------------------------------------------------

/-- Nothing that a resolver has done before bears on how it resolves a module. -/
theorem Resolver.process_eq (r : Resolver) (types : List SchemaType) :
    r.process types =
      ({ r with current := (resolveModule r.registry types).1 }, (resolveModule r.registry types).2) := by
  unfold resolveModule process
  dsimp only
  split
  · rfl
  · split
    · rfl
    · split <;> rfl

/-- Imports are handed out only if nothing fails. -/
theorem imports_of_resolveModule (registry : Registry) (types : List SchemaType) :
    (resolveModule registry types).2 = none ∨ (resolveModule registry types).1.imports = [] := by
  unfold resolveModule Resolver.process
  dsimp only
  split
  · exact .inr rfl
  · split
    · exact .inr rfl
    · split
      · exact .inr rfl
      · exact .inl rfl

/-- Two different names of a module come after each other. -/
def NeedsInCircle (types : List SchemaType) : Prop :=
  ∃ a b, b ≠ a ∧ TransGen (NameAfter types) a b ∧ TransGen (NameAfter types) b a

theorem needsInCircle_iff :
    NeedsInCircle types ↔ ∃ q, TransGen (fun a b => NameAfter types a b ∧ b ≠ a) q q :=
  exists_congr fun _ => Digraph.transGen_ne_self_iff.symm

/-- A resolution has failed by a violation of the rule. -/
def Violates (failure : Option Failure) (rule : Rule) : Prop :=
  ∃ detail qnames, failure = some (.ofCompile rule detail qnames)

theorem violates_ofCompile_iff {rule rule' : Rule} {detail : String} {qnames : List String} :
    Violates (some (.ofCompile rule' detail qnames)) rule ↔ rule' = rule := by
  constructor
  · rintro ⟨_, _, heq⟩
    exact congrArg (fun e => e.rule) (Cause.compile.inj (congrArg Failure.cause (Option.some.inj heq)))
  · rintro rfl
    exact ⟨_, _, rfl⟩

theorem not_violates_none {rule : Rule} : ¬ Violates none rule := fun ⟨_, _, h⟩ => nomatch h

/-- A module fails for a repeated name, else for a circle of names, else for a name that no module
defines, and for nothing else. -/
theorem resolveModule_fails_iff (registry : Registry) (types : List SchemaType) :
    (Violates (resolveModule registry types).2 .duplicateType ↔ ¬ (types.map (·.qname)).Nodup) ∧
    (Violates (resolveModule registry types).2 .dependencyCycle ↔
      (types.map (·.qname)).Nodup ∧ NeedsInCircle types) ∧
    (Violates (resolveModule registry types).2 .unresolvedReference ↔
      (types.map (·.qname)).Nodup ∧ ¬ NeedsInCircle types ∧ LacksName registry types) ∧
    ((resolveModule registry types).2 = none ↔
      (types.map (·.qname)).Nodup ∧ ¬ NeedsInCircle types ∧ ¬ LacksName registry types) := by
  rw [needsInCircle_iff]
  obtain ⟨hdup, _, _, heq⟩ | ⟨hnodup, hcycle, _, _, heq⟩ |
      ⟨hnodup, hacyclic, ⟨hlacks, _, _, heq⟩ | ⟨heq, hresolved⟩⟩ :=
    resolveModule_cases registry types
  · simp [heq, violates_ofCompile_iff, hdup]
  · simp [heq, violates_ofCompile_iff, hnodup, hcycle]
  · simp [heq, violates_ofCompile_iff, hnodup, hacyclic, hlacks]
  · simp [heq, not_violates_none, hnodup, hacyclic, hresolved.not_lacksName]

/-- A module fails for a cycle exactly when two or more of its names come after each other. -/
theorem resolveModule_dependencyCycle_iff :
    Violates (resolveModule registry types).2 .dependencyCycle ↔
      (types.map (·.qname)).Nodup ∧ ∃ q, TransGen (fun a b => NameAfter types a b ∧ b ≠ a) q q := by
  rw [← needsInCircle_iff]
  exact (resolveModule_fails_iff registry types).2.1

/-- A resolver fails as its rules say, in their order, and a failure leaves no imports, whatever the
resolver has held before. -/
theorem Resolver.process_fails_iff (r : Resolver) (types : List SchemaType) :
    (Violates (r.process types).2 .duplicateType ↔ ¬ (types.map (·.qname)).Nodup) ∧
    (Violates (r.process types).2 .dependencyCycle ↔
      (types.map (·.qname)).Nodup ∧ NeedsInCircle types) ∧
    (Violates (r.process types).2 .unresolvedReference ↔
      (types.map (·.qname)).Nodup ∧ ¬ NeedsInCircle types ∧ LacksName r.registry types) ∧
    ((r.process types).2 = none ↔
      (types.map (·.qname)).Nodup ∧ ¬ NeedsInCircle types ∧ ¬ LacksName r.registry types) ∧
    ((r.process types).2 = none ∨ (r.process types).1.current.imports = []) := by
  rw [r.process_eq types]
  obtain ⟨hduplicate, hcircle, hlacks, hsuccess⟩ := resolveModule_fails_iff r.registry types
  exact ⟨hduplicate, hcircle, hlacks, hsuccess, imports_of_resolveModule r.registry types⟩

end Schemata
