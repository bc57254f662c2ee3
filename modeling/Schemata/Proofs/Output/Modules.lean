import Mathlib.Data.List.Forall2
import Mathlib.Data.List.Perm.Basic
import Schemata.Pipeline.Analysis
import Schemata.Proofs.Output.Integrity
import Schemata.Proofs.Output.Resolution

/-!
# The modules of a list of types

The output modules share the types out by path. Inside a module dependencies come first, and what a
module needs and does not define it imports, from a module that defines it.

A reference is bound to a type by its handle and imported by its name. The two agree unless another
root has the name: one in the importing module hides the type that is meant, and one that comes later
in the list draws the import to its own module.
-/

namespace Schemata

variable {types : List SchemaType} {modules : List Module} {m : Module} {path : String} {q : QName}

-- ---------------------------------------------------------------------------
-- Sharing types out
-- ---------------------------------------------------------------------------

theorem modulePaths_perm (types : List SchemaType) :
    (modulePaths types).Perm (types.map (·.modulePath)).eraseDups :=
  List.mergeSort_perm _ _

theorem modulePaths_nodup (types : List SchemaType) : (modulePaths types).Nodup :=
  (modulePaths_perm types).nodup_iff.mpr (Lists.nodup_eraseDups _)

theorem mem_modulePaths_iff : path ∈ modulePaths types ↔ ∃ t ∈ types, t.modulePath = path := by
  rw [(modulePaths_perm types).mem_iff, List.mem_eraseDups, List.mem_map]

theorem modulePaths_ascending (types : List SchemaType) :
    (modulePaths types).Pairwise (· < ·) := by
  have hle : (modulePaths types).Pairwise (· ≤ ·) := by
    refine List.Pairwise.imp (R := fun a b => (!decide (b < a)) = true) (fun {a b} hab => ?_)
      (List.pairwise_mergeSort (fun a b c hab hbc => ?_) (fun a b => ?_) _)
    · simpa only [Bool.not_eq_true', decide_eq_false_iff_not, String.not_lt] using hab
    · simp only [Bool.not_eq_true', decide_eq_false_iff_not, String.not_lt] at hab hbc ⊢
      exact String.le_trans hab hbc
    · simp only [Bool.or_eq_true, Bool.not_eq_true', decide_eq_false_iff_not, String.not_lt]
      exact String.le_total a b
  -- sorted and without repetition is strictly sorted
  refine (hle.and (modulePaths_nodup types)).imp fun ⟨hab, hne⟩ => ?_
  exact String.not_le.mp fun hba => hne (String.le_antisymm hab hba)

/-- The last type of a name in a list. -/
def LastNamed (types : List SchemaType) (q : QName) (t : SchemaType) : Prop :=
  ∃ before after, types = before ++ t :: after ∧ t.qname = q ∧ ∀ u ∈ after, u.qname ≠ q

theorem LastNamed.mem {t : SchemaType} (h : LastNamed types q t) : t ∈ types := by
  obtain ⟨before, after, rfl, -⟩ := h
  exact List.mem_append_right _ List.mem_cons_self

/-- The registry leads to the module of the last type of a name. -/
theorem source?_registryOf_eq_some_iff :
    (registryOf types).source? q = some path ↔ ∃ t, LastNamed types q t ∧ t.modulePath = path := by
  rw [Registry.source?, registryOf, ← List.map_reverse, List.lookup_eq_some_iff]
  constructor
  · rintro ⟨late, early, heq, hlate⟩
    obtain ⟨late', rest, hrev, rfl, hrest⟩ := List.map_eq_append_iff.mp heq
    obtain ⟨t, early', rfl, ht, rfl⟩ := List.map_eq_cons_iff.mp hrest
    obtain ⟨hqname, hpath⟩ := Prod.mk.inj ht
    refine ⟨t, ⟨early'.reverse, late'.reverse, ?_, hqname, fun u hu => ?_⟩, hpath⟩
    · rw [← List.reverse_reverse types, hrev]
      simp
    · have := hlate _ (List.mem_map_of_mem (List.mem_reverse.mp hu))
      exact fun hu => by simp [hu] at this
  · rintro ⟨t, ⟨before, after, rfl, rfl, hafter⟩, rfl⟩
    refine ⟨after.reverse.map fun u => (u.qname, u.modulePath),
      before.reverse.map fun u => (u.qname, u.modulePath), by simp, fun p hp => ?_⟩
    obtain ⟨u, hu, rfl⟩ := List.mem_map.mp hp
    simpa using (hafter u (List.mem_reverse.mp hu)).symm

/-- The types that belong to a path. -/
def membersAt (types : List SchemaType) (path : String) : List SchemaType :=
  types.filter (·.modulePath == path)

theorem mem_membersAt_iff {t : SchemaType} :
    t ∈ membersAt types path ↔ t ∈ types ∧ t.modulePath = path := by
  simp [membersAt]

/-- The module of a path, taken apart. -/
theorem moduleAt_eq_ok (h : moduleAt types path = .ok m) :
    m.path = path ∧ ∃ r, Resolved (registryOf types) (membersAt types path) r ∧
      m.types = r.sortedTypes ∧ m.imports = r.imports := by
  unfold moduleAt at h
  dsimp only at h
  split at h
  case h_1 => cases h
  case h_2 r hr =>
    obtain rfl := Except.ok.inj h
    exact ⟨rfl, r, resolved_of_resolveModule hr, rfl, rfl⟩

/-- A module is resolved when its types have names of their own and can be put in order, and all that is
imported is found. -/
theorem moduleAt_of_sort (members : List SchemaType) (order : List QName) (located : List Import)
    (hmembers : membersAt types path = members)
    (hdistinct : firstRepeated? [] (members.map (·.qname)) = none)
    (hsort : (dependencyGraph members).sort = .ok order)
    (hlocated : locateImports (registryOf types) (Resolution.importedNames { types := members, order }) =
      .ok located) :
    moduleAt types path = .ok
      { path
        package := (members.headD {}).package
        name := (members.headD {}).moduleName
        types := Resolution.sortedTypes { types := members, order }
        imports := Imports.resolveConflicts located (members.map (·.name)) } := by
  subst hmembers
  unfold membersAt at *
  simp only [moduleAt, resolveModule, Resolver.process, hdistinct, hsort]
  rw [hlocated]
  rfl

theorem resolveModules_eq_ok_iff : resolveModules types = .ok modules ↔
    List.Forall₂ (fun path m => moduleAt types path = .ok m) (modulePaths types) modules :=
  Lists.mapM_eq_ok_iff

theorem map_path_of_resolveModules (h : resolveModules types = .ok modules) :
    modules.map (·.path) = modulePaths types := by
  have hall := resolveModules_eq_ok_iff.mp h
  generalize modulePaths types = paths at hall
  clear h
  induction hall with
  | nil => rfl
  | cons hm _ ih => rw [List.map_cons, ih, (moduleAt_eq_ok hm).1]

/-- Every module handed out is the resolution of the types of its path. -/
theorem resolved_of_mem_modules (h : resolveModules types = .ok modules) (hm : m ∈ modules) :
    ∃ r, Resolved (registryOf types) (membersAt types m.path) r ∧
      m.types = r.sortedTypes ∧ m.imports = r.imports := by
  obtain ⟨path, -, hpath⟩ := Lists.exists_mem_of_forall₂ (resolveModules_eq_ok_iff.mp h) hm
  obtain ⟨rfl, hres⟩ := moduleAt_eq_ok hpath
  exact hres

theorem types_perm_membersAt (h : resolveModules types = .ok modules) (hm : m ∈ modules) :
    m.types.Perm (membersAt types m.path) := by
  obtain ⟨r, hr, heq, -⟩ := resolved_of_mem_modules h hm
  exact heq ▸ hr.sortedTypes_perm

theorem mem_types_iff (h : resolveModules types = .ok modules) (hm : m ∈ modules) {t : SchemaType} :
    t ∈ m.types ↔ t ∈ types ∧ t.modulePath = m.path :=
  (types_perm_membersAt h hm).mem_iff.trans mem_membersAt_iff

theorem exists_module_of_mem (h : resolveModules types = .ok modules) {t : SchemaType}
    (ht : t ∈ types) : ∃ m ∈ modules, m.path = t.modulePath ∧ t ∈ m.types := by
  have hpath : t.modulePath ∈ modules.map (·.path) := by
    rw [map_path_of_resolveModules h]
    exact mem_modulePaths_iff.mpr ⟨t, ht, rfl⟩
  obtain ⟨m, hm, hpath⟩ := List.mem_map.mp hpath
  exact ⟨m, hm, hpath, (mem_types_iff h hm).mpr ⟨ht, hpath.symm⟩⟩

theorem modules_perm (h : resolveModules types = .ok modules) :
    (modules.flatMap (·.types)).Perm types := by
  have hgroups : (modules.flatMap (·.types)).Perm
      ((modulePaths types).flatMap (membersAt types)) := by
    rw [← map_path_of_resolveModules h, List.flatMap_map]
    exact List.Perm.flatMap_left _ fun m hm => types_perm_membersAt h hm
  exact hgroups.trans (Lists.flatMap_filter_perm (modulePaths_nodup types)
    fun t ht => mem_modulePaths_iff.mpr ⟨t, ht, rfl⟩)

/-- A name is imported exactly when the module needs it and does not define it. -/
theorem mem_imports_iff (h : resolveModules types = .ok modules) (hm : m ∈ modules) :
    q ∈ m.imports.map (·.qname) ↔ (∃ t ∈ m.types, t.DependsOn q) ∧ ∀ t ∈ m.types, t.qname ≠ q := by
  obtain ⟨r, hr, heq, himports⟩ := resolved_of_mem_modules h hm
  simp only [himports, hr.mem_imports_iff, heq, hr.mem_sortedTypes_iff]

/-- An import leads to the last type of its name. -/
theorem lastNamed_of_mem_imports (h : resolveModules types = .ok modules) (hm : m ∈ modules)
    {i : Import} (hi : i ∈ m.imports) :
    ∃ t, LastNamed types i.qname t ∧ t.modulePath = i.source := by
  obtain ⟨r, hr, -, himports⟩ := resolved_of_mem_modules h hm
  exact source?_registryOf_eq_some_iff.mp (hr.located i (himports ▸ hi))

/-- How the modules that are handed out relate to the types. -/
structure SharedOut (types : List SchemaType) (modules : List Module) : Prop where
  /-- Module paths ascend, so there is one module for a path. -/
  ascending : (modules.map (·.path)).Pairwise (· < ·)
  /-- The modules together hold every type once. -/
  partition : (modules.flatMap (·.types)).Perm types
  /-- A type is in the module of its path. -/
  placed : ∀ m ∈ modules, m.types ≠ [] ∧ ∀ t ∈ m.types, t.modulePath = m.path
  /-- What a type refers to comes before it, unless the reference is circular. -/
  dependenciesFirst : ∀ m ∈ modules, ∀ before t after, m.types = before ++ t :: after →
    ∀ ft, t.Refers ft → ft.isDependency = true → ft.circular = false →
      ∀ u ∈ m.types, u ≠ t → u.qname = ft.qname → u ∈ before
  /-- No name is imported twice. -/
  importedOnce : ∀ m ∈ modules, (m.imports.map (·.qname)).Nodup
  /-- What is needed and not defined is imported, and nothing else. -/
  imported : ∀ m ∈ modules, ∀ q, q ∈ m.imports.map (·.qname) ↔
    (∃ t ∈ m.types, ∃ ft, t.Refers ft ∧ ft.isDependency = true ∧ ft.qname = q) ∧
      ∀ t ∈ m.types, t.qname ≠ q
  /-- An import comes from a module that defines it. -/
  sources : ∀ m ∈ modules, ∀ i ∈ m.imports, ∃ n ∈ modules, n.path = i.source ∧
    ∃ t ∈ n.types, t.qname = i.qname

theorem sharedOut_of_resolveModules (h : resolveModules types = .ok modules) :
    SharedOut types modules where
  ascending := map_path_of_resolveModules h ▸ modulePaths_ascending types
  partition := modules_perm h
  placed m hm := by
    refine ⟨fun hnil => ?_, fun t ht => ((mem_types_iff h hm).mp ht).2⟩
    have hpath : m.path ∈ modulePaths types :=
      map_path_of_resolveModules h ▸ List.mem_map_of_mem hm
    obtain ⟨t, ht, heq⟩ := mem_modulePaths_iff.mp hpath
    have := (mem_types_iff h hm).mpr ⟨ht, heq⟩
    simp [hnil] at this
  dependenciesFirst m hm before t after hsplit ft href hdep hcircular u hu hne hq := by
    obtain ⟨r, hr, heq, -⟩ := resolved_of_mem_modules h hm
    rw [heq] at hsplit hu
    exact hr.mem_before hsplit (hr.mem_sortedTypes_iff.mp hu) hne
      ⟨ft, href, hdep, hcircular, hq.symm⟩
  importedOnce m hm := by
    obtain ⟨r, hr, -, himports⟩ := resolved_of_mem_modules h hm
    exact himports ▸ hr.imports_nodup
  imported m hm q := mem_imports_iff h hm
  sources m hm i hi := by
    obtain ⟨t, hlast, hpath⟩ := lastNamed_of_mem_imports h hm hi
    obtain ⟨n, hn, hnpath, ht⟩ := exists_module_of_mem h hlast.mem
    obtain ⟨_, _, _, hname, _⟩ := hlast
    exact ⟨n, hn, hnpath.trans hpath, t, ht, hname⟩

namespace Crossing

/-- Its inner type needs `b` of the same module and, in a circle, `c` of another. -/
def a : SchemaType :=
  { id := 1, qname := ⟨"urn:t", "A"⟩, package := "gen", moduleName := "a"
    inner := [
      { id := 2, qname := ⟨"urn:t", "I"⟩
        fields := [
          { name := "b", types := [{ qname := ⟨"urn:t", "B"⟩, reference := 3 }] },
          { name := "c", types := [{ qname := ⟨"urn:t", "C"⟩, reference := 4, circular := true }] }] }] }

def b : SchemaType :=
  { id := 3, qname := ⟨"urn:t", "B"⟩, package := "gen", moduleName := "a" }

def c : SchemaType :=
  { id := 4, qname := ⟨"urn:t", "C"⟩, package := "gen", moduleName := "b"
    extensions := [{ type := { qname := ⟨"urn:t", "A"⟩, reference := 1, circular := true } }] }

def moduleA : Module :=
  { path := "gen.a", package := "gen", name := "a", types := [b, a]
    imports := [{ qname := ⟨"urn:t", "C"⟩, source := "gen.b" }] }

def moduleB : Module :=
  { path := "gen.b", package := "gen", name := "b", types := [c]
    imports := [{ qname := ⟨"urn:t", "A"⟩, source := "gen.a" }] }

theorem resolveModules_eq : resolveModules [a, b, c] = .ok [moduleA, moduleB] := by
  have hpaths : modulePaths [a, b, c] = ["gen.a", "gen.b"] := List.mergeSort_of_pairwise (by decide +kernel)
  rw [resolveModules_eq_ok_iff, hpaths]
  refine .cons ?_ (.cons ?_ .nil)
  · exact moduleAt_of_sort [a, b] [b.qname, a.qname, c.qname] moduleA.imports rfl (by decide +kernel)
      (by decide +kernel) (by decide +kernel)
  · exact moduleAt_of_sort [c] [c.qname, a.qname] moduleB.imports rfl (by decide +kernel) (by decide +kernel)
      (by decide +kernel)

theorem sharedOut :
    resolveModules [a, b, c] = .ok [moduleA, moduleB] ∧ SharedOut [a, b, c] [moduleA, moduleB] :=
  ⟨resolveModules_eq, sharedOut_of_resolveModules resolveModules_eq⟩

end Crossing

end Schemata

-- ---------------------------------------------------------------------------
-- Imports and bindings
-- ---------------------------------------------------------------------------

namespace Schemata

variable {types : List SchemaType} {modules : List Module} {m : Module} {t target : SchemaType}
  {ft : FieldType}

/-- A reference gives the name of the root that it is bound to, if handles tell names apart. -/
theorem qname_eq_of_bound (hi : integrityViolation? types = none) (ht : t ∈ types)
    (href : t.Refers ft) (hdep : ft.isDependency = true) (hbound : target.id = ft.reference)
    (hhandle : ∀ u ∈ SchemaType.walkAll types, u.id = target.id → u.qname = target.qname) :
    target.qname = ft.qname := by
  obtain ⟨u, hu, hid, hqname⟩ :=
    exists_target_of_integrity hi ht href (FieldType.native_eq_false hdep)
  rw [← hqname, hhandle u hu (hid.trans hbound.symm)]

/-- An import from the module of `target` is there exactly when no type of the module hides the name
and the last root of the name is in that module. -/
theorem import_from_iff (h : resolveModules types = .ok modules) (hm : m ∈ modules)
    (ht : t ∈ m.types) (hdepends : t.DependsOn target.qname) :
    (∃ i ∈ m.imports, i.qname = target.qname ∧ i.source = target.modulePath) ↔
      (∀ u ∈ m.types, u.qname ≠ target.qname) ∧
        ∃ last, LastNamed types target.qname last ∧ last.modulePath = target.modulePath := by
  constructor
  · rintro ⟨i, hmem, hqname, hsource⟩
    refine ⟨((mem_imports_iff h hm).mp (hqname ▸ List.mem_map_of_mem hmem)).2, ?_⟩
    obtain ⟨last, hlast, hpath⟩ := lastNamed_of_mem_imports h hm hmem
    exact ⟨last, hqname ▸ hlast, hpath.trans hsource⟩
  · rintro ⟨hundefined, last, hlast, hpath⟩
    obtain ⟨i, hmem, hqname⟩ :=
      List.mem_map.mp ((mem_imports_iff h hm).mpr ⟨⟨t, ht, hdepends⟩, hundefined⟩)
    obtain ⟨last', hlast', hpath'⟩ := lastNamed_of_mem_imports h hm hmem
    have hsource : some i.source = some target.modulePath := by
      rw [← source?_registryOf_eq_some_iff.mpr ⟨last', hlast', hpath'⟩, hqname]
      exact source?_registryOf_eq_some_iff.mpr ⟨last, hlast, hpath⟩
    exact ⟨i, hmem, hqname, Option.some.inj hsource⟩

/-- When a module imports what its references are bound to, for every list that passes the integrity
check. A type of the module itself is never imported; one of another module is imported from there
exactly when its name is not defined in the module and the last root of the name is in the same
module as the type. -/
theorem imports_agree_with_bindings_iff (hi : integrityViolation? types = none)
    (h : resolveModules types = .ok modules) (hm : m ∈ modules) (ht : t ∈ m.types)
    (href : t.Refers ft) (hdep : ft.isDependency = true) (hbound : target.id = ft.reference)
    (hhandle : ∀ u ∈ SchemaType.walkAll types, u.id = target.id → u.qname = target.qname) :
    (target ∈ m.types → target.qname ∉ m.imports.map (·.qname)) ∧
    (target.modulePath ≠ m.path →
      ((∃ i ∈ m.imports, i.qname = target.qname ∧ i.source = target.modulePath) ↔
        (∀ u ∈ m.types, u.qname ≠ target.qname) ∧
          ∃ last, LastNamed types target.qname last ∧ last.modulePath = target.modulePath)) := by
  have htypes : t ∈ types := ((mem_types_iff h hm).mp ht).1
  have hqname := qname_eq_of_bound hi htypes href hdep hbound hhandle
  refine ⟨fun hmem himported => ?_, fun _ => ?_⟩
  · exact ((mem_imports_iff h hm).mp himported).2 target hmem rfl
  · exact import_from_iff h hm ht ⟨ft, href, hdep, hqname.symm⟩

/-- The import of `c` by the inner type of `a`: nothing hides `c`, and it is the last of its name. -/
theorem Crossing.imports_agree :
    integrityViolation? [a, b, c] = none ∧ resolveModules [a, b, c] = .ok [moduleA, moduleB] ∧
    ∃ ft, a.Refers ft ∧ ft.isDependency = true ∧ c.id = ft.reference ∧ c.modulePath ≠ moduleA.path ∧
      ∃ i ∈ moduleA.imports, i.qname = c.qname ∧ i.source = c.modulePath := by
  have hi : integrityViolation? [a, b, c] = none := by decide +kernel
  have hpath : c.modulePath ≠ moduleA.path := by decide
  let ft : FieldType := { qname := ⟨"urn:t", "C"⟩, reference := 4, circular := true }
  have href : a.Refers ft :=
    SchemaType.mem_flatMap_fieldTypes_iff.mp (by decide)
  have hmember : a ∈ moduleA.types := by simp [moduleA]
  have hhandle : ∀ u ∈ SchemaType.walkAll [a, b, c], u.id = c.id → u.qname = c.qname := by decide
  have hagree := imports_agree_with_bindings_iff hi resolveModules_eq List.mem_cons_self hmember
    href rfl rfl hhandle
  refine ⟨hi, resolveModules_eq, ft, href, rfl, rfl, hpath, (hagree.2 hpath).mpr ⟨by decide, c, ?_, rfl⟩⟩
  exact ⟨[a, b], [], rfl, rfl, fun _ h => absurd h List.not_mem_nil⟩

namespace Namesakes

def element : SchemaType :=
  { id := 1, qname := ⟨"urn:t", "A"⟩, tag := .element, package := "gen", moduleName := "a" }

def complexType : SchemaType :=
  { id := 2, qname := ⟨"urn:t", "A"⟩, tag := .complexType, package := "gen", moduleName := "b" }

/-- Refers to the element, which is not the last of its name. -/
def user : SchemaType :=
  { id := 3, qname := ⟨"urn:t", "C"⟩, tag := .complexType, package := "gen", moduleName := "c"
    fields := [{ name := "a", types := [{ qname := ⟨"urn:t", "A"⟩, reference := 1 }] }] }

def userModule : Module :=
  { path := "gen.c", package := "gen", name := "c", types := [user]
    imports := [{ qname := ⟨"urn:t", "A"⟩, source := "gen.b" }] }

/-- Imports do not always agree with bindings: the name of the element is imported from the module of
the type that shares it. -/
theorem imports_disagree :
    integrityViolation? [element, complexType, user] = none ∧
    ∃ modules, resolveModules [element, complexType, user] = .ok modules ∧ userModule ∈ modules ∧
      user ∈ userModule.types ∧ ∃ ft, user.Refers ft ∧ ft.isDependency = true ∧
        element.id = ft.reference ∧ element.modulePath ≠ userModule.path ∧
        ¬ ∃ i ∈ userModule.imports, i.qname = element.qname ∧ i.source = element.modulePath := by
  have hpaths : modulePaths [element, complexType, user] = ["gen.a", "gen.b", "gen.c"] :=
    List.mergeSort_of_pairwise (by decide +kernel)
  have hmodules : resolveModules [element, complexType, user] = .ok [
      { path := "gen.a", package := "gen", name := "a", types := [element], imports := [] },
      { path := "gen.b", package := "gen", name := "b", types := [complexType], imports := [] },
      userModule] := by
    rw [resolveModules_eq_ok_iff, hpaths]
    refine .cons ?_ (.cons ?_ (.cons ?_ .nil))
    · exact moduleAt_of_sort [element] [element.qname] [] rfl (by decide +kernel) (by decide +kernel)
        (by decide +kernel)
    · exact moduleAt_of_sort [complexType] [complexType.qname] [] rfl (by decide +kernel) (by decide +kernel)
        (by decide +kernel)
    · exact moduleAt_of_sort [user] [element.qname, user.qname] userModule.imports rfl (by decide +kernel)
        (by decide +kernel) (by decide +kernel)
  refine ⟨by decide +kernel, _, hmodules, by simp, by simp [userModule],
    { qname := ⟨"urn:t", "A"⟩, reference := 1 }, ?_, rfl, rfl, by decide, by decide⟩
  exact SchemaType.mem_flatMap_fieldTypes_iff.mp (by decide)

end Namesakes

end Schemata
