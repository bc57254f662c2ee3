import Schemata.Proofs.Output.Clusters

/-!
# Modules by file

Types that come from files are put into modules by the directories of the files, below those that all have
in common. The directories in common are as many as they can be, and no file has fewer: so there is always
a place in the directories of a file from which on they are taken, and every module has a name.
-/

-- ---------------------------------------------------------------------------
-- Common directories
-- ---------------------------------------------------------------------------

namespace Schemata.Location

variable {p as bs first : List String} {paths rest : List (List String)}

theorem prefix_shared_iff : p <+: commonStart.shared as bs ↔ p <+: as ∧ p <+: bs := by
  fun_induction commonStart.shared as bs generalizing p with
  | case1 a as b bs heq ih =>
    obtain rfl : a = b := by simpa using heq
    cases p with
    | nil => simp
    | cons c p => simp only [List.cons_prefix_cons, ih]; tauto
  | case2 a as b bs hne =>
    cases p with
    | nil => simp
    | cons c p =>
      have hab : a ≠ b := by simpa using hne
      refine iff_of_false (by simp) ?_
      rintro ⟨ha, hb⟩
      exact hab ((List.cons_prefix_cons.mp ha).1.symm.trans (List.cons_prefix_cons.mp hb).1)
  | case3 as bs hempty =>
    rw [List.prefix_nil]
    constructor
    · rintro rfl
      exact ⟨List.nil_prefix, List.nil_prefix⟩
    · rintro ⟨ha, hb⟩
      cases as with
      | nil => exact List.prefix_nil.mp ha
      | cons a as =>
        cases bs with
        | nil => exact List.prefix_nil.mp hb
        | cons b bs => exact (hempty a as b bs rfl rfl).elim

/-- What all paths start with goes on as far as can be. -/
theorem prefix_commonStart_iff (hpaths : paths ≠ []) : p <+: commonStart paths ↔ ∀ q ∈ paths, p <+: q := by
  obtain ⟨first, rest, rfl⟩ := List.exists_cons_of_ne_nil hpaths
  rw [List.forall_mem_cons, commonStart]
  clear hpaths
  induction rest generalizing first with
  | nil => simp
  | cons q rest ih => rw [List.foldl_cons, ih, prefix_shared_iff, List.forall_mem_cons, and_assoc]

/-- The directories of a location below some others, if it has as many. -/
def below? (shared : List String) (location : String) : Option (List String) :=
  if shared.length ≤ (directories location).length then some ((directories location).drop shared.length) else none

end Schemata.Location

namespace Schemata

open Compile

variable {s s' : Store} {types : List SchemaType} {root : List String} {t : SchemaType} {package location : String}
  {m : ModuleId}

/-- The located types are in common directories, which are all that they have in common. -/
structure CommonRoot (types : List SchemaType) (root : List String) : Prop where
  common : ∀ t ∈ types, t.location ≠ "" → root <+: Location.directories t.location
  longest : (∃ t ∈ types, t.location ≠ "") →
    ∀ p, (∀ t ∈ types, t.location ≠ "" → p <+: Location.directories t.location) → p <+: root
  empty : (∀ t ∈ types, t.location = "") → root = []

theorem prefix_sharedDirectories_iff {p : List String} (hlocated : ∃ t ∈ types, t.location ≠ "") :
    p <+: sharedDirectories types ↔ ∀ t ∈ types, t.location ≠ "" → p <+: Location.directories t.location := by
  obtain ⟨u, hu, hne⟩ := hlocated
  have hmem : u ∈ types.filter (·.location != "") := List.mem_filter.mpr ⟨hu, by simpa using hne⟩
  rw [sharedDirectories, Location.prefix_commonStart_iff (List.ne_nil_of_mem (List.mem_map_of_mem hmem)),
    List.forall_mem_map]
  simp only [List.mem_filter, bne_iff_ne, and_imp]

theorem commonRoot_sharedDirectories (types : List SchemaType) : CommonRoot types (sharedDirectories types) where
  common t ht hne := (prefix_sharedDirectories_iff ⟨t, ht, hne⟩).mp (List.prefix_refl _) t ht hne
  longest hlocated _ := (prefix_sharedDirectories_iff hlocated).mpr
  empty hnone := by
    have hfilter : types.filter (·.location != "") = [] := List.filter_eq_nil_iff.mpr (by simpa using hnone)
    rw [sharedDirectories, hfilter]
    rfl

-- ---------------------------------------------------------------------------
-- Modules
-- ---------------------------------------------------------------------------

/-- The module of a location, for which there has to be a place below the shared directories. -/
def locationModule? (package : String) (shared : List String) (location : String) : Option ModuleId :=
  if location = "" then some ⟨package, defaultModule⟩
  else (Location.below? shared location).map fun below =>
    let segments := (below.map Name.snakeCase).filter (· != "")
    let name := Name.snakeCase (Location.stem location)
    ⟨ModulePath.join (package :: segments), if name = "" then defaultModule else name⟩

theorem locationModule?_eq_some_iff : locationModule? package root location = some m ↔
    (location ≠ "" → root.length ≤ (Location.directories location).length) ∧
      locationModule package root location = m := by
  unfold locationModule? locationModule
  by_cases hempty : location = ""
  · simp [hempty]
  rw [if_neg hempty, if_neg hempty, Location.below?]
  split
  case isTrue hle => simp [hle]
  case isFalse hlt => simp [hempty, hlt]

theorem name_locationModule_ne (package : String) (shared : List String) (location : String) :
    (locationModule package shared location).name ≠ "" := by
  have hdefault : defaultModule ≠ "" := by decide
  unfold locationModule
  split
  case isTrue => exact hdefault
  case isFalse =>
    dsimp only
    split
    case isTrue => exact hdefault
    case isFalse hname => exact hname

/-- Designation by files puts every root into the module of its location, also if it then complains
about a circle. -/
theorem places_designate (hlayout : s.config.output.layout = .filenames) :
    wp designate
      (fun _ s' => s.Places (fun e =>
        locationModule s.config.output.package (sharedDirectories s.types) e.type.location) s')
      (fun _ s' => s.Places (fun e =>
        locationModule s.config.output.package (sharedDirectories s.types) e.type.location) s') s := by
  unfold designate designateRoots
  simp only [wp_bind, wp_get, hlayout, wp_set, wp_modify]
  split
  · exact wp_throw.mpr (Store.places_inheritModules rfl)
  · exact wp_pure.mpr (Store.places_inheritModules rfl)

/-- Every type, root or nested, is in a module with a name. -/
def Store.Named (s : Store) : Prop :=
  ∀ e ∈ s.roots, ∀ u, SchemaType.Within u e.type → u.moduleName ≠ ""

theorem Store.Places.named {shared : List String}
    (hs' : s.Places (fun e => locationModule package shared e.type.location) s') : s'.Named := by
  intro e he u hu
  obtain ⟨e₀, -, hmodule⟩ := hs'.exists_module he
  rw [(hmodule u hu).2]
  exact name_locationModule_ne _ _ _

/-- All located types are below the common directories, which are the longest that all of them start with.
So the module of every type is found, and it has a name. Its path is the scope in which the name of the
type has to be unique, and designation puts the type into it with all that is nested in the type. -/
theorem files_below_common_root (s : Store) (hlayout : s.config.output.layout = .filenames) :
    CommonRoot s.types (sharedDirectories s.types) ∧
    (∀ t ∈ s.types, ∃ m,
      locationModule? s.config.output.package (sharedDirectories s.types) t.location = some m ∧ m.name ≠ "" ∧
      locationModule s.config.output.package (sharedDirectories s.types) t.location = m ∧
      s.config.output.scope (sharedDirectories s.types) t = m.path) ∧
    wp designate (fun _ s' => s'.Named) (fun _ s' => s'.Named) s := by
  have hroot := commonRoot_sharedDirectories s.types
  refine ⟨hroot, fun t ht => ⟨_, locationModule?_eq_some_iff.mpr ⟨fun hne => ?_, rfl⟩, ?_, rfl, ?_⟩, ?_⟩
  · exact (hroot.common t ht hne).length_le
  · exact name_locationModule_ne _ _ _
  · simp only [OutputConfig.scope, hlayout]
  · exact wp_mono (places_designate hlayout) (fun _ _ => Store.Places.named) fun _ _ => Store.Places.named

namespace Filed

/-- Types from files of one tree, one of them in its topmost directory and one of them without letters and
digits in its name, and a type that comes from nowhere. -/
def store : Store :=
  ({ config := { output := { layout := .filenames } } } : Store).insertAll [
    { qname := ⟨"urn:x", "Money"⟩, tag := .complexType, location := "/srv/schemas/common/./types.v2.xsd" },
    { qname := ⟨"urn:x", "Order"⟩, tag := .element, location := "file:///srv/schemas/old/../orders/OrderTypes.xsd"
      fields := [{ name := "total", types := [{ qname := ⟨"urn:x", "Money"⟩, reference := 1 }] }]
      inner := [{ qname := ⟨"urn:x", "Line"⟩, tag := .complexType }] },
    { qname := ⟨"urn:x", "Part"⟩, tag := .complexType, location := "\\srv\\schemas\\--.xsd" },
    { qname := ⟨"urn:x", "Loose"⟩, tag := .complexType }]

theorem store_below_common_root :
    CommonRoot store.types ["srv", "schemas"] ∧
    (∀ t ∈ store.types, ∃ m, locationModule? "generated" ["srv", "schemas"] t.location = some m ∧ m.name ≠ "") ∧
    wp designate (fun _ s' => (s'.roots.flatMap fun e => e.type.walk.map (·.modulePath)) =
      ["generated.common.types_v2", "generated.orders.order_types", "generated.orders.order_types",
        "generated.default", "generated.default"]) (fun _ _ => False) store := by
  have hshared : sharedDirectories store.types = ["srv", "schemas"] := by decide +kernel
  obtain ⟨hroot, hmodules, -⟩ := files_below_common_root store rfl
  rw [hshared] at hroot hmodules
  refine ⟨hroot, fun t ht => ?_, by decide +kernel⟩
  obtain ⟨m, hm, hname, -⟩ := hmodules t ht
  exact ⟨m, hm, hname⟩

end Filed

end Schemata
