import Mathlib.Data.List.Perm.Subperm
import Schemata.Pipeline.Filtering
import Schemata.Proofs.Binding.Bound
import Schemata.Proofs.Output.Resolution
import Schemata.Proofs.Store.History
import Schemata.Proofs.Store.Whole

/-!
# What filtering keeps

What is generated is the least set of roots that has the generatable ones and is closed: with a root it
has every root of a name that the root depends on. Filtering finds it by a queue and takes all other
roots out, by their handles. So it leaves no dependency behind that it takes the target from, and a root
that is generated goes only if it shares its handle with one that is not.
-/

namespace Schemata

open SchemaType

variable {s : Store} {e : Entry}

/-- New entries out of given ones: each once, and none that is kept already. -/
structure Gathers (kept : List Nat) (given fresh : List Entry) : Prop where
  subset : fresh ⊆ given
  nodup : (fresh.map (·.key)).Nodup
  new : ∀ e ∈ fresh, e.key ∉ kept
  complete : ∀ e ∈ given, e.key ∈ kept ∨ e.key ∈ fresh.map (·.key)

theorem Gathers.foldl {kept : List Nat} {given fresh : List Entry} (h : Gathers kept given fresh)
    (rest : List Entry) :
    Gathers kept (given ++ rest) (rest.foldl (fun fresh dep =>
      if kept.contains dep.key || fresh.any (·.key == dep.key) then fresh else fresh ++ [dep]) fresh) := by
  induction rest generalizing given fresh with
  | nil => rwa [List.append_nil]
  | cons e rest ih =>
    rw [List.foldl_cons, List.append_cons]
    refine ih ?_
    have hcovered : (kept.contains e.key || fresh.any (·.key == e.key)) = true ↔
        e.key ∈ kept ∨ e.key ∈ fresh.map (·.key) := by
      simp [List.mem_map]
    split
    case isTrue hold =>
      refine ⟨List.subset_append_of_subset_left _ h.subset, h.nodup, h.new, fun d hd => ?_⟩
      obtain hd | hd := List.mem_append.mp hd
      · exact h.complete d hd
      · rw [List.mem_singleton.mp hd]
        exact hcovered.mp hold
    case isFalse hnew =>
      rw [hcovered, not_or] at hnew
      constructor
      case subset =>
        exact List.append_subset.mpr ⟨List.subset_append_of_subset_left _ h.subset,
          List.subset_append_right _ _⟩
      case nodup =>
        rw [List.map_append, List.nodup_append]
        refine ⟨h.nodup, List.nodup_singleton _, fun k hk k' hk' heq => ?_⟩
        rw [heq, List.mem_singleton.mp hk'] at hk
        exact hnew.2 hk
      case new =>
        intro d hd
        obtain hd | hd := List.mem_append.mp hd
        · exact h.new d hd
        · rw [List.mem_singleton.mp hd]
          exact hnew.1
      case complete =>
        intro d hd
        rw [List.map_append, List.mem_append]
        obtain hd | hd := List.mem_append.mp hd
        · exact (h.complete d hd).imp_right .inl
        · exact .inr (.inr (List.mem_map_of_mem hd))

/-- What is new is no longer left. -/
theorem Gathers.length_add_le {kept : List Nat} {given fresh all : List Entry} (h : Gathers kept given fresh)
    (hall : fresh ⊆ all) :
    fresh.length + (all.filter fun e => !(kept ++ fresh.map (·.key)).contains e.key).length ≤
      (all.filter fun e => !kept.contains e.key).length := by
  have hsplit := List.length_eq_length_filter_add
    (l := all.filter fun e => !kept.contains e.key) fun e => (fresh.map (·.key)).contains e.key
  rw [hsplit, List.filter_filter, List.filter_filter]
  refine Nat.add_le_add ?_ (Nat.le_of_eq (congrArg List.length (List.filter_congr fun d _ => ?_)))
  · refine List.Nodup.length_le_of_subset (h.nodup.of_map _) fun d hd => ?_
    have hkey : d.key ∈ fresh.map (·.key) := List.mem_map_of_mem hd
    exact List.mem_filter.mpr ⟨hall hd, by simp [hkey, h.new d hd]⟩
  · rw [List.contains_append, Bool.not_or, Bool.and_comm]

namespace Store

/-- All roots of the names that a root depends on are among the given ones. -/
def Needs (s : Store) (kept : List Nat) (e : Entry) : Prop :=
  ∀ q ∈ e.type.dependencies false, ∀ d ∈ s.bucket q, d.key ∈ kept

/-- What is generated: the generatable roots, and with a root all of the names that it depends on. -/
inductive Generated (s : Store) : Entry → Prop
  | root {e : Entry} (he : e ∈ s.roots) (hgenerate : e.type.shouldGenerate = true) : Generated s e
  | dependency {e d : Entry} (he : Generated s e) (hdepends : e.type.DependsOn d.type.qname)
      (hd : d ∈ s.roots) : Generated s d

theorem Generated.mem_roots (he : s.Generated e) : e ∈ s.roots := by
  cases he with
  | root he => exact he
  | dependency _ _ hd => exact hd

/-- A search for what is generated: what is found is generated, and has been looked through unless it is
in the queue. -/
structure Closing (s : Store) (queue : List Entry) (kept : List Nat) : Prop where
  start : ∀ e ∈ s.roots, e.type.shouldGenerate = true → e.key ∈ kept
  queued : ∀ e ∈ queue, s.Generated e
  found : ∀ k ∈ kept, ∃ e, s.Generated e ∧ e.key = k
  closed : ∀ e ∈ s.roots, e.key ∈ kept → e ∈ queue ∨ s.Needs kept e

namespace Closing

variable {queue fresh : List Entry} {kept : List Nat}

theorem init (hs : s.RootsApart) : s.Closing (s.roots.filter (·.type.shouldGenerate))
    ((s.roots.filter (·.type.shouldGenerate)).map (·.key)) where
  start e he hgenerate := List.mem_map_of_mem (List.mem_filter.mpr ⟨he, hgenerate⟩)
  queued e he := .root (List.mem_filter.mp he).1 (List.mem_filter.mp he).2
  found k hk := by
    obtain ⟨e, he, hkey⟩ := List.mem_map.mp hk
    exact ⟨e, .root (List.mem_filter.mp he).1 (List.mem_filter.mp he).2, hkey⟩
  closed e he hk := by
    obtain ⟨d, hd, hkey⟩ := List.mem_map.mp hk
    obtain rfl := hs d (List.mem_of_mem_filter hd) e he hkey
    exact .inl hd

/-- One root is taken off the queue, and what it depends on gets there. -/
theorem step (hs : s.RootsApart) (hindex : s.Indexed) (h : s.Closing (e :: queue) kept)
    (hfresh : Gathers kept ((e.type.dependencies false).flatMap s.bucket) fresh) :
    s.Closing (queue ++ fresh) (kept ++ fresh.map (·.key)) := by
  obtain ⟨he, hqueue⟩ := List.forall_mem_cons.mp h.queued
  have hgenerated : ∀ d ∈ fresh, s.Generated d := by
    intro d hd
    obtain ⟨q, hq, hdq⟩ := List.mem_flatMap.mp (hfresh.subset hd)
    rw [hs.bucket hindex, List.mem_filter, beq_iff_eq] at hdq
    exact .dependency he (mem_dependencies_false_iff.mp (hdq.2 ▸ hq)) hdq.1
  constructor
  case start => exact fun d hd hgenerate => List.mem_append_left _ (h.start d hd hgenerate)
  case queued => exact List.forall_mem_append.mpr ⟨hqueue, hgenerated⟩
  case found =>
    refine List.forall_mem_append.mpr ⟨h.found, fun k hk => ?_⟩
    obtain ⟨d, hd, hkey⟩ := List.mem_map.mp hk
    exact ⟨d, hgenerated d hd, hkey⟩
  case closed =>
    intro d hd hk
    obtain hk | hk := List.mem_append.mp hk
    · obtain hmem | hneeds := h.closed d hd hk
      · obtain rfl | hmem := List.mem_cons.mp hmem
        · refine .inr fun q hq d' hd' => List.mem_append.mpr ?_
          exact hfresh.complete d' (List.mem_flatMap.mpr ⟨q, hq, hd'⟩)
        · exact .inl (List.mem_append_left _ hmem)
      · exact .inr fun q hq d' hd' => List.mem_append_left _ (hneeds q hq d' hd')
    · obtain ⟨d', hd', hkey⟩ := List.mem_map.mp hk
      obtain rfl := hs d' (hgenerated d' hd').mem_roots d hd hkey
      exact .inl (List.mem_append_right _ hd')

/-- Every round takes one root off the queue, and every root gets there once. -/
theorem run (hs : s.RootsApart) (hindex : s.Indexed) (h : s.Closing queue kept) {steps : Nat}
    (hsteps : queue.length + (s.roots.filter fun e => !kept.contains e.key).length ≤ steps) :
    s.Closing [] (s.keepClosure steps queue kept) := by
  induction steps generalizing queue kept with
  | zero =>
    obtain rfl : queue = [] := List.eq_nil_of_length_eq_zero (by omega)
    rwa [keepClosure]
  | succ steps ih =>
    cases queue with
    | nil => rwa [keepClosure]
    | cons e queue =>
      rw [keepClosure, ← List.foldl_flatMap]
      have hfresh : Gathers kept [] [] := ⟨nofun, List.nodup_nil, nofun, nofun⟩
      have hfresh := hfresh.foldl ((e.type.dependencies false).flatMap s.bucket)
      rw [List.nil_append] at hfresh
      revert hfresh
      generalize List.foldl _ [] ((e.type.dependencies false).flatMap s.bucket) = fresh
      intro hfresh
      have hnext := h.step hs hindex hfresh
      refine ih hnext ?_
      have hlength := hfresh.length_add_le fun d hd =>
        (hnext.queued d (List.mem_append_right _ hd)).mem_roots
      rw [List.length_append]
      rw [List.length_cons] at hsteps
      omega

/-- When the queue is empty the search has found what is generated. -/
theorem mem_iff (hs : s.RootsApart) (hindex : s.Indexed) (h : s.Closing [] kept) (he : e ∈ s.roots) :
    e.key ∈ kept ↔ s.Generated e := by
  constructor
  · intro hk
    obtain ⟨d, hd, hkey⟩ := h.found _ hk
    exact hs d hd.mem_roots e he hkey ▸ hd
  · intro hgenerated
    induction hgenerated with
    | root he hgenerate => exact h.start _ he hgenerate
    | @dependency e d hgenerated hdepends hd ih =>
      have hneeds := (h.closed e hgenerated.mem_roots (ih hgenerated.mem_roots)).resolve_left
        List.not_mem_nil
      refine hneeds d.type.qname (mem_dependencies_false_iff.mpr hdepends) d ?_
      rw [hs.bucket hindex]
      exact List.mem_filter.mpr ⟨hd, beq_self_eq_true _⟩

end Closing

/-- If there is something to generate, all that is not generated is taken out. -/
theorem exists_closing_filterGenerated (hs : s.RootsApart) (hindex : s.Indexed)
    (hfilter : s.config.output.keeps ≠ .all)
    (hsome : (s.roots.filter (·.type.shouldGenerate)).isEmpty = false) :
    ∃ kept, s.Closing [] kept ∧
      s.filterGenerated = s.remove ((s.roots.map (·.key)).filter (!kept.contains ·)) := by
  refine ⟨s.keepClosure (s.entries.length + 1) _ _, (Closing.init hs).run hs hindex ?_, ?_⟩
  · have hcovered : (s.roots.filter fun e =>
        !((s.roots.filter (·.type.shouldGenerate)).map (·.key)).contains e.key).length ≤
        (s.roots.filter fun e => !e.type.shouldGenerate).length := by
      rw [← List.countP_eq_length_filter, ← List.countP_eq_length_filter]
      refine List.countP_mono_left fun e he hnot => ?_
      rw [Bool.not_eq_true', ← Bool.not_eq_true, List.contains_iff_mem] at hnot
      rw [Bool.not_eq_true', ← Bool.not_eq_true]
      exact fun hgenerate => hnot (List.mem_map_of_mem (List.mem_filter.mpr ⟨he, hgenerate⟩))
    have hsplit := List.length_eq_length_filter_add (l := s.roots) (·.type.shouldGenerate)
    have hentries : s.roots.length ≤ s.entries.length := by
      rw [entries, List.length_append]
      exact Nat.le_add_right _ _
    omega
  · unfold filterGenerated
    simp only [hfilter, hsome, if_false, Bool.false_eq_true]

/-- Roots that are taken out leave no link unbound if what stays needs none of them. -/
theorem Anchored.remove (hs : s.Sound) (hanchored : s.Anchored) {kept : List Nat}
    (hkept : ∀ e ∈ s.roots, e.key ∈ kept → s.Needs kept e) {s' : Store}
    (hroots : s'.roots = s.roots.filter fun e => kept.contains e.key) : s'.Anchored := by
  have hmem : ∀ t, t ∈ s'.types ↔ ∃ e ∈ s.roots, e.key ∈ kept ∧ e.type = t := by
    intro t
    simp only [types, hroots, List.mem_map, List.mem_filter, List.contains_iff_mem, and_assoc]
  have hholds : ∀ u, s'.Holds u → s.Holds u := by
    rintro u ⟨t, ht, hut⟩
    obtain ⟨e, he, -, rfl⟩ := (hmem t).mp ht
    exact ⟨e.type, List.mem_map_of_mem he, hut⟩
  constructor
  case dependency =>
    intro u hu l hl hforward
    obtain ⟨t, ht, hid, hqname⟩ := hanchored.dependency (hholds u hu) l hl hforward
    obtain ⟨e, he, rfl⟩ := List.mem_map.mp ht
    refine ⟨e.type, (hmem _).mpr ⟨e, he, ?_, rfl⟩, hid, hqname⟩
    obtain ⟨t', ht', hut⟩ := hu
    obtain ⟨e', he', hk', rfl⟩ := (hmem t').mp ht'
    refine hkept e' he' hk' l.qname ?_ e ?_
    · obtain ⟨ft, hft, hlink⟩ := mem_links_iff.mp hl
      unfold FieldType.link? at hlink
      split at hlink
      · cases hlink
      obtain rfl := Option.some.inj hlink
      refine List.mem_eraseDups.mpr (List.mem_map.mpr ⟨ft, List.mem_filter.mpr ⟨?_, ?_⟩, rfl⟩)
      · exact List.mem_flatMap.mpr ⟨u, mem_walk_iff.mpr hut, hft⟩
      · simp_all [FieldType.isDependency]
    · rw [hs.bucket]
      exact List.mem_filter.mpr ⟨he, beq_iff_eq.mpr hqname⟩
  case forward => exact fun u hu => hanchored.forward (hholds u hu)

/-- What filtering does: it takes out roots that no other root depends on. -/
structure Filters (s s' : Store) : Prop where
  sound : s'.Sound
  nextHandle : s'.nextHandle = s.nextHandle
  keys : s.KeysBelow → s'.KeysBelow
  subset : s'.types ⊆ s.types
  anchored : s.Anchored → s'.Anchored

theorem filters_filterGenerated (hs : s.Sound) : s.Filters s.filterGenerated := by
  by_cases hfilter : s.config.output.keeps = .all
  · rw [filterGenerated, if_pos hfilter]
    exact ⟨hs, rfl, id, List.Subset.refl _, id⟩
  cases hsome : (s.roots.filter (·.type.shouldGenerate)).isEmpty with
  | true =>
    simp only [filterGenerated, if_neg hfilter, hsome, if_true]
    exact ⟨⟨hs.keys, hs.handles, hs.below, hs.byName, hs.byHandle⟩, rfl, id, List.Subset.refl _,
      fun h => ⟨h.dependency, h.forward⟩⟩
  | false =>
  obtain ⟨kept, hclosing, heq⟩ :=
    exists_closing_filterGenerated (rootsApart_of_nodup hs.keys) hs.byName hfilter hsome
  rw [heq]
  have hclosed : ∀ e ∈ s.roots, e.key ∈ kept → s.Needs kept e := fun e he hk =>
    (hclosing.closed e he hk).resolve_left List.not_mem_nil
  have hkeys : ∀ k ∈ (s.roots.map (·.key)).filter (!kept.contains ·), ∃ e ∈ s.roots, e.key = k :=
    fun k hk => List.mem_map.mp (List.mem_of_mem_filter hk)
  have hroots : (s.remove ((s.roots.map (·.key)).filter (!kept.contains ·))).roots =
      s.roots.filter fun e => kept.contains e.key := by
    rw [roots_remove hs hkeys]
    refine List.filter_congr fun e he => ?_
    by_cases hk : e.key ∈ kept
    · simp [hk]
    · simp [hk, List.mem_map_of_mem (f := Entry.key) he]
  refine ⟨hs.remove hkeys, nextHandle_remove hs hkeys, fun h => h.remove hs hkeys, ?_,
    fun h => h.remove hs hclosed hroots⟩
  unfold types
  rw [hroots]
  exact List.map_subset _ (List.filter_subset_self _)

-- ---------------------------------------------------------------------------
-- What is left
-- ---------------------------------------------------------------------------

variable {t : SchemaType} {kept : List Nat}

/-- The roots that are given to be taken out. -/
theorem mem_given_iff (hs : s.RootsApart) (hkept : ∀ e ∈ s.roots, e.key ∈ kept ↔ s.Generated e) :
    t ∈ ((s.roots.map (·.key)).filter (!kept.contains ·)).filterMap s.typeOfKey? ↔
      ∃ d ∈ s.roots, ¬ s.Generated d ∧ d.type = t := by
  rw [hs.filterMap_typeOfKey? fun k hk => List.mem_map.mp (List.mem_of_mem_filter hk)]
  constructor
  · rintro ⟨d, hd, hk, rfl⟩
    have hnot := (List.mem_filter.mp hk).2
    rw [Bool.not_eq_true', ← Bool.not_eq_true, List.contains_iff_mem, hkept d hd] at hnot
    exact ⟨d, hd, hnot, rfl⟩
  · rintro ⟨d, hd, hnot, rfl⟩
    refine ⟨d, hd, List.mem_filter.mpr ⟨List.mem_map_of_mem hd, ?_⟩, rfl⟩
    rwa [Bool.not_eq_true', ← Bool.not_eq_true, List.contains_iff_mem, hkept d hd]

/-- Of a name all of whose roots stay nothing changes. -/
theorem filter_filter_name {keep : Entry → Bool} {q : QName}
    (hkeep : ∀ d ∈ s.roots, d.type.qname = q → keep d = true) :
    (s.roots.filter keep).filter (·.type.qname == q) = s.roots.filter (·.type.qname == q) := by
  rw [List.filter_filter]
  refine List.filter_congr fun d hd => ?_
  by_cases hname : d.type.qname = q
  · rw [hkeep d hd hname, Bool.and_true]
  · rw [beq_eq_false_iff_ne.mpr hname, Bool.false_and]

/-- Handles are shared only among roots that are generated, or only among others. -/
def HandlesApart (s : Store) : Prop :=
  ∀ e ∈ s.roots, ∀ d ∈ s.roots, d.type.id = e.type.id → s.Generated e → s.Generated d

/-- If something is generatable, the roots that are left are those of the least set that has the generatable
roots and all that roots in it depend on, but for roots that share a handle with one outside. -/
theorem filterGenerated_keeps_closure (hs : s.RootsApart) (hindex : s.Indexed)
    (hfilter : s.config.output.keeps = .globals)
    (hsome : ∃ e ∈ s.roots, e.type.shouldGenerate = true) :
    ∃ keep : Entry → Bool, s.filterGenerated.roots = s.roots.filter keep ∧
      (∀ e ∈ s.roots, keep e = true ↔
        s.Generated e ∧ ∀ d ∈ s.roots, d.type.id = e.type.id → s.Generated d) ∧
      (s.HandlesApart → (∀ e ∈ s.roots, keep e = true ↔ s.Generated e) ∧
        s.filterGenerated.Indexed ∧
        ∀ e ∈ s.filterGenerated.roots, ∀ q, e.type.DependsOn q →
          s.filterGenerated.roots.filter (·.type.qname == q) = s.roots.filter (·.type.qname == q)) := by
  have hstart : (s.roots.filter (·.type.shouldGenerate)).isEmpty = false := by
    obtain ⟨e, he, hgenerate⟩ := hsome
    rw [List.isEmpty_eq_false_iff]
    exact List.ne_nil_of_mem (List.mem_filter.mpr ⟨he, hgenerate⟩)
  obtain ⟨kept, hclosing, heq⟩ :=
    exists_closing_filterGenerated hs hindex (by rw [hfilter]; exact nofun) hstart
  have hgiven := fun t => mem_given_iff (t := t) hs fun e he => hclosing.mem_iff hs hindex he
  rw [heq]
  generalize (s.roots.map (·.key)).filter (!kept.contains ·) = keys at hgiven
  obtain ⟨aside, hremove, -⟩ := remove_eq_foldl s keys fun _ _ => rfl
  obtain ⟨byName, hbyName, -⟩ := foldl_reindex_eq _ _
  have hroots := congrArg Store.roots (hremove.trans hbyName)
  have hkeep : ∀ e ∈ s.roots, (!((keys.filterMap s.typeOfKey?).map (·.id)).contains e.type.id) = true ↔
      s.Generated e ∧ ∀ d ∈ s.roots, d.type.id = e.type.id → s.Generated d := by
    intro e he
    rw [Bool.not_eq_true', ← Bool.not_eq_true, List.contains_iff_mem, List.mem_map]
    simp only [hgiven]
    constructor
    · intro hnot
      have hall : ∀ d ∈ s.roots, d.type.id = e.type.id → s.Generated d := fun d hd hid =>
        not_not.mp fun hd' => hnot ⟨d.type, ⟨d, hd, hd', rfl⟩, hid⟩
      exact ⟨hall e he rfl, hall⟩
    · rintro ⟨-, hall⟩ ⟨_, ⟨d, hd, hnot, rfl⟩, hid⟩
      exact hnot (hall d hd hid)
  refine ⟨_, hroots, hkeep, fun hapart => ?_⟩
  have hexact : ∀ e ∈ s.roots,
      (!((keys.filterMap s.typeOfKey?).map (·.id)).contains e.type.id) = true ↔ s.Generated e :=
    fun e he => (hkeep e he).trans
      ⟨fun h => h.1, fun h => ⟨h, fun d hd hid => hapart e he d hd hid h⟩⟩
  refine ⟨hexact, ?_, fun e he q hq => ?_⟩
  · rw [hremove]
    refine hindex.foldl_reindex _ _ rfl fun q hq => congrArg (List.map _) (filter_filter_name ?_)
    rintro d hd rfl
    refine (hexact d hd).mpr (not_not.mp fun hnot => hq (List.mem_map.mpr ⟨d.type, ?_, rfl⟩))
    exact (hgiven d.type).mpr ⟨d, hd, hnot, rfl⟩
  · rw [hroots] at he ⊢
    obtain ⟨he, hkept⟩ := List.mem_filter.mp he
    refine filter_filter_name fun d hd hname => (hexact d hd).mpr ?_
    exact .dependency ((hexact e he).mp hkept) (hname ▸ hq) hd

end Store

namespace Filtered

def root (id : Handle) (name : String) (tag : Tag) (needs : List String) : SchemaType where
  id := id
  qname := ⟨"urn:t", name⟩
  tag := tag
  fields := needs.map fun need =>
    { name := need, tag := .element, types := [{ qname := ⟨"urn:t", need⟩ }] }

/-- A record that needs two types of one name, one of which needs the record, and a type that needs them
but that nothing needs. -/
def library : Store :=
  ([root 1 "A" .complexType ["S"], root 2 "S" .simpleType [], root 3 "T" .simpleType ["A", "S"],
      root 4 "S" .simpleType ["A"]].map Operation.enter ++
    [Operation.extend (List.range 4)]).foldl Operation.run { nextHandle := 5 }

theorem filterGenerated_keeps_closure_library :
    library.RootsApart ∧ library.Indexed ∧ library.config.output.keeps = .globals ∧
    (∃ e ∈ library.roots, e.type.shouldGenerate = true) ∧ library.HandlesApart ∧
    library.filterGenerated.roots.map (·.key) = [0, 1, 3] ∧
    (∃ keep : Entry → Bool, library.filterGenerated.roots = library.roots.filter keep ∧
      ∀ e ∈ library.roots, keep e = true ↔ library.Generated e) ∧
    ∀ e ∈ library.filterGenerated.roots, ∀ q, e.type.DependsOn q →
      library.filterGenerated.roots.filter (·.type.qname == q) =
        library.roots.filter (·.type.qname == q) := by
  have hlibrary : library.Consistent := (Store.Consistent.empty {} 4).runAll (by decide +kernel)
  have hs : library.RootsApart := Store.rootsApart_of_nodup (by decide +kernel)
  have hsome : ∃ e ∈ library.roots, e.type.shouldGenerate = true := by decide +kernel
  have hids : (library.roots.map (·.type.id)).Nodup := by decide +kernel
  have hapart : library.HandlesApart := fun e he d hd hid hgenerated =>
    List.inj_on_of_nodup_map hids hd he hid ▸ hgenerated
  obtain ⟨keep, hroots, -, hend⟩ :=
    Store.filterGenerated_keeps_closure hs hlibrary.byName rfl hsome
  obtain ⟨hkeep, -, hneeds⟩ := hend hapart
  exact ⟨hs, hlibrary.byName, rfl, hsome, hapart, by decide +kernel, ⟨keep, hroots, hkeep⟩, hneeds⟩

/-- A record and another type of the same handle. -/
def twins : Store :=
  ({} : Store).insertAll [root 1 "A" .complexType [], root 1 "B" .simpleType []]

/-- A record is generatable, but goes with the type that has its handle. -/
theorem filterGenerated_drops_twin :
    twins.RootsApart ∧ twins.Indexed ∧ twins.config.output.keeps = .globals ∧
    (∃ e ∈ twins.roots, e.type.shouldGenerate = true) ∧
    ¬ ∃ keep : Entry → Bool, twins.filterGenerated.roots = twins.roots.filter keep ∧
      ∀ e ∈ twins.roots, keep e = true ↔ twins.Generated e := by
  have hempty : ({} : Store).Indexed := fun _ => rfl
  have hfirst : (({} : Store).insert (root 1 "A" .complexType [])).Indexed :=
    Store.Indexed.append hempty rfl rfl
  have hindex : twins.Indexed := Store.Indexed.append hfirst rfl rfl
  have hgone : twins.filterGenerated.roots = [] := List.map_eq_nil_iff.mp
    (show twins.filterGenerated.roots.map (·.key) = [] by decide +kernel)
  refine ⟨Store.rootsApart_of_nodup (by decide +kernel), hindex, rfl, by decide +kernel, ?_⟩
  rintro ⟨keep, hroots, hkeep⟩
  have hmem : (⟨0, root 1 "A" .complexType []⟩ : Entry) ∈ twins.roots := List.mem_cons_self
  have hkept := (hkeep _ hmem).mpr (.root hmem rfl)
  rw [hgone, eq_comm, List.filter_eq_nil_iff] at hroots
  exact hroots _ hmem hkept

end Filtered

end Schemata
