import Mathlib.Data.List.Pairwise
import Schemata.Proofs.Lists
import Schemata.Proofs.Name.Segments
import Schemata.Unique.TypeNames

/-!
# The names that are given out

Naming goes through the groups of roots whose names have one key in one scope and takes a key for
every name that it gives. Which roots get which names depends on the roots at the start alone, so a
run comes down to a list of renames: every root at most once, and only where two roots clash, by names
whose keys no root of the scope has and no other rename gives. All but one root of a group are on it.
-/

namespace Schemata

/-- A root and the local name that it gets. -/
structure Renaming where
  entry : Entry
  name : String

/-- The new name of a root. -/
def Renaming.qname (r : Renaming) : QName :=
  r.entry.type.qname.withName r.name

namespace Store

/-- The scope in which the name of a root has to be unique. -/
def scopeOf (s : Store) (e : Entry) : String :=
  s.config.output.scope (sharedDirectories s.types) e.type

/-- What must differ between two roots: the scope or the key of the name. -/
def slot (s : Store) (e : Entry) : String × String :=
  (s.scopeOf e, Name.key e.type.name)

/-- Renames roots one after another. -/
def renameAll (s : Store) (rs : List Renaming) : Store :=
  rs.foldl (fun s r => s.renameRoot r.entry.key r.name) s

theorem renameAll_append (s : Store) (rs rs' : List Renaming) :
    s.renameAll (rs ++ rs') = (s.renameAll rs).renameAll rs' :=
  List.foldl_append

/-- Renames that bring no two roots together. -/
structure Plan (s : Store) (rs : List Renaming) : Prop where
  roots : ∀ r ∈ rs, r.entry ∈ s.roots
  once : (rs.map (·.entry.key)).Nodup
  /-- Only a root that clashes with another one is renamed. -/
  clashes : ∀ r ∈ rs, ∃ e ∈ s.roots, e.key ≠ r.entry.key ∧ s.slot e = s.slot r.entry
  /-- No root of the scope has had the key of a new name. -/
  new : ∀ r ∈ rs, ∀ e ∈ s.roots, s.scopeOf e = s.scopeOf r.entry →
    Name.key e.type.name ≠ Name.key r.name
  apart : rs.Pairwise fun r r' =>
    s.scopeOf r.entry = s.scopeOf r'.entry → Name.key r.name ≠ Name.key r'.name

/-- Of two roots that clash one is renamed. -/
def Settling (s : Store) (rs : List Renaming) : Prop :=
  ∀ e ∈ s.roots, ∀ e' ∈ s.roots, e.key ≠ e'.key → s.slot e = s.slot e' →
    e.key ∈ rs.map (·.entry.key) ∨ e'.key ∈ rs.map (·.entry.key)

end Store

namespace TypeNaming

variable {s : Store} {n : TypeNaming} {rs : List Renaming} {e : Entry} {name scope key : String}
  {group : List Entry}

/-- Naming has come to a list of renames, and the keys of all names, old and new, are taken. -/
structure Follows (s : Store) (rs : List Renaming) (n : TypeNaming) : Prop where
  plan : s.Plan rs
  store : n.store = s.renameAll rs
  held : ∀ e ∈ s.roots, Name.key e.type.name ∈ n.takenIn (s.scopeOf e)
  given : ∀ r ∈ rs, Name.key r.name ∈ n.takenIn (s.scopeOf r.entry)

theorem takenIn_take (n : TypeNaming) (scope scope' : String) (keys : List String) :
    (n.take scope keys).takenIn scope' = if scope' = scope then keys else n.takenIn scope' := by
  unfold takenIn take
  rw [List.lookup_cons]
  split
  case h_1 heq => rw [if_pos (beq_iff_eq.mp heq)]; rfl
  case h_2 heq => rw [if_neg fun h => by simp [h] at heq]

theorem mem_takenIn_take {scope' : String} (h : key ∈ n.takenIn scope') (k : String) :
    key ∈ (n.take scope (k :: n.takenIn scope)).takenIn scope' := by
  rw [takenIn_take]
  split
  case isTrue hscope => exact List.mem_cons_of_mem _ (hscope ▸ h)
  case isFalse => exact h

/-- A root gets a name whose key is free, and the key is taken. -/
theorem Follows.rename (hn : n.Follows s rs) (he : e ∈ s.roots) (honce : e.key ∉ rs.map (·.entry.key))
    (hclash : ∃ e' ∈ s.roots, e'.key ≠ e.key ∧ s.slot e' = s.slot e)
    (hfree : Name.key name ∉ n.takenIn (s.scopeOf e)) :
    Follows s (rs ++ [⟨e, name⟩])
      ((n.take (s.scopeOf e) (Name.key name :: n.takenIn (s.scopeOf e))).rename e name) where
  plan := by
    constructor
    case roots =>
      rw [List.forall_mem_append, List.forall_mem_singleton]
      exact ⟨hn.plan.roots, he⟩
    case once =>
      rw [List.map_append]
      refine hn.plan.once.append (List.nodup_singleton _) fun k hk hk' => ?_
      obtain rfl : k = e.key := List.mem_singleton.mp hk'
      exact honce hk
    case clashes =>
      rw [List.forall_mem_append, List.forall_mem_singleton]
      exact ⟨hn.plan.clashes, hclash⟩
    case new =>
      rw [List.forall_mem_append, List.forall_mem_singleton]
      refine ⟨hn.plan.new, fun e' he' hscope hkey => hfree ?_⟩
      exact hkey ▸ hscope ▸ hn.held e' he'
    case apart =>
      refine List.pairwise_append.mpr ⟨hn.plan.apart, List.pairwise_singleton _ _, ?_⟩
      rintro r hr _ (_ | _) hscope hkey
      · exact hfree (hkey ▸ hscope ▸ hn.given r hr)
      · contradiction
  store := by
    rw [Store.renameAll_append, ← hn.store]
    rfl
  held e' he' := mem_takenIn_take (hn.held e' he') _
  given := by
    rw [List.forall_mem_append, List.forall_mem_singleton]
    refine ⟨fun r hr => mem_takenIn_take (hn.given r hr) _, ?_⟩
    change _ ∈ (n.take _ _).takenIn _
    rw [takenIn_take, if_pos rfl]
    exact List.mem_cons_self

theorem Follows.number (hn : n.Follows s rs) (he : e ∈ s.roots) (honce : e.key ∉ rs.map (·.entry.key))
    (hclash : ∃ e' ∈ s.roots, e'.key ≠ e.key ∧ s.slot e' = s.slot e) :
    ∃ name, Follows s (rs ++ [⟨e, name⟩]) (number (s.scopeOf e) n e) :=
  ⟨_, hn.rename he honce hclash (Name.key_nextFree_not_mem _ _)⟩

/-- A group of roots that clash, none of which is renamed yet. -/
structure Pending (s : Store) (rs : List Renaming) (k : String × String) (group : List Entry) :
    Prop where
  roots : group ⊆ s.roots
  keys : (group.map (·.key)).Nodup
  slot : ∀ e ∈ group, s.slot e = k
  waiting : ∀ e ∈ group, e.key ∉ rs.map (·.entry.key)

/-- The renames of one group. -/
structure Parts (group : List Entry) (new : List Renaming) : Prop where
  entries : ∀ r ∈ new, r.entry ∈ group
  settled : ∀ e ∈ group, ∀ e' ∈ group, e.key ≠ e'.key →
    e.key ∈ new.map (·.entry.key) ∨ e'.key ∈ new.map (·.entry.key)

theorem Parts.nil : Parts [] [] :=
  ⟨fun _ hr => absurd hr List.not_mem_nil, fun _ he => absurd he List.not_mem_nil⟩

theorem Follows.numberAll {k : String × String} {others : List Entry} (hn : n.Follows s rs)
    (hp : Pending s rs k others)
    (hclash : ∀ e ∈ others, ∃ e' ∈ s.roots, e'.key ≠ e.key ∧ s.slot e' = s.slot e) :
    ∃ new, Follows s (rs ++ new) (others.foldl (TypeNaming.number k.1) n) ∧
      new.map (·.entry) = others := by
  induction others generalizing n rs with
  | nil => exact ⟨[], by rwa [List.append_nil], rfl⟩
  | cons e others ih =>
    obtain ⟨he, hroots⟩ := List.cons_subset.mp hp.roots
    obtain ⟨hnew, hkeys⟩ := List.nodup_cons.mp hp.keys
    have hscope : s.scopeOf e = k.1 := congrArg Prod.fst (hp.slot e List.mem_cons_self)
    obtain ⟨name, hnumber⟩ :=
      hn.number he (hp.waiting e List.mem_cons_self) (hclash e List.mem_cons_self)
    rw [hscope] at hnumber
    have hrest : Pending s (rs ++ [⟨e, name⟩]) k others := by
      refine ⟨hroots, hkeys, fun e' he' => hp.slot e' (List.mem_cons_of_mem _ he'), fun e' he' => ?_⟩
      rw [List.map_append, List.mem_append, not_or]
      refine ⟨hp.waiting e' (List.mem_cons_of_mem _ he'), fun hmem => hnew ?_⟩
      exact List.mem_singleton.mp hmem ▸ List.mem_map_of_mem he'
    obtain ⟨new, hfollows, hentries⟩ :=
      ih hnumber hrest fun e' he' => hclash e' (List.mem_cons_of_mem _ he')
    refine ⟨⟨e, name⟩ :: new, ?_, by rw [List.map_cons, hentries]⟩
    rw [List.append_cons]
    exact hfollows

/-- All but the keeper of a group are numbered. -/
theorem Follows.numberOthers {k : String × String} (hn : n.Follows s rs) (hp : Pending s rs k group) :
    ∃ new, Follows s (rs ++ new) (n.numberOthers k.1 group) ∧ Parts group new := by
  unfold TypeNaming.numberOthers
  dsimp only
  obtain rfl | ⟨keeper, hkeeper, hmem⟩ : group = [] ∨ ∃ keeper,
      (group.find? (·.type.isElement)).or group.head? = some keeper ∧ keeper ∈ group := by
    cases group with
    | nil => exact .inl rfl
    | cons e es =>
      refine .inr ?_
      cases hfind : (e :: es).find? (·.type.isElement) with
      | none => exact ⟨e, rfl, List.mem_cons_self⟩
      | some keeper => exact ⟨keeper, rfl, List.mem_of_find?_eq_some hfind⟩
  · exact ⟨[], by rwa [List.append_nil], .nil⟩
  rw [hkeeper]
  have hothers : ∀ e, e ∈ group.filter (fun e => some e.key != (some keeper).map (·.key)) ↔
      e ∈ group ∧ e.key ≠ keeper.key := by
    intro e
    rw [List.mem_filter]
    simp
  have hsub : (group.filter fun e => some e.key != (some keeper).map (·.key)).Sublist group :=
    List.filter_sublist
  generalize group.filter _ = others at hothers hsub
  have hpending : Pending s rs k others :=
    ⟨List.Subset.trans hsub.subset hp.roots, hp.keys.sublist (hsub.map _),
      fun e he => hp.slot e (hsub.subset he), fun e he => hp.waiting e (hsub.subset he)⟩
  -- every other root clashes with the keeper
  have hclash : ∀ e ∈ others, ∃ e' ∈ s.roots, e'.key ≠ e.key ∧ s.slot e' = s.slot e := by
    intro e he
    obtain ⟨he, hne⟩ := (hothers e).mp he
    exact ⟨keeper, hp.roots hmem, Ne.symm hne, (hp.slot keeper hmem).trans (hp.slot e he).symm⟩
  obtain ⟨new, hfollows, hentries⟩ := hn.numberAll hpending hclash
  have hnew : ∀ e ∈ group, e.key ≠ keeper.key → e.key ∈ new.map (·.entry.key) := by
    intro e he hne
    have hmap : new.map (·.entry.key) = others.map (·.key) := by rw [← hentries, List.map_map]; rfl
    exact hmap ▸ List.mem_map_of_mem ((hothers e).mpr ⟨he, hne⟩)
  refine ⟨new, hfollows, fun r hr => ?_, fun e he e' he' hne => ?_⟩
  · exact hsub.subset (hentries ▸ List.mem_map_of_mem hr)
  · by_cases hkey : e.key = keeper.key
    · exact .inr (hnew e' he' fun hkey' => hne (hkey.trans hkey'.symm))
    · exact .inl (hnew e he hkey)

/-- Of two roots one is told apart by its construct, if that name is free. -/
theorem Follows.tellApart {k : String × String} {a b : Entry} {n' : TypeNaming} (hn : n.Follows s rs)
    (hp : Pending s rs k [a, b]) (htold : n.tellApart? k.1 a b = some n') :
    ∃ new, Follows s (rs ++ new) n' ∧ Parts [a, b] new := by
  unfold tellApart? at htold
  split at htold
  · cases htold
  dsimp only at htold
  have hne : a.key ≠ b.key := by simpa using hp.keys
  obtain ⟨target, other, htarget, hmem, hother, hkey⟩ : ∃ target other,
      (if b.type.isElement then a else b) = target ∧ target ∈ [a, b] ∧ other ∈ [a, b] ∧
        other.key ≠ target.key := by
    split
    · exact ⟨a, b, rfl, by simp, by simp, hne.symm⟩
    · exact ⟨b, a, rfl, by simp, by simp, hne⟩
  rw [htarget] at htold
  split at htold
  · cases htold
  case isFalse hfree =>
    obtain rfl := Option.some.inj htold
    have hscope : s.scopeOf target = k.1 := congrArg Prod.fst (hp.slot target hmem)
    have hslot := (hp.slot other hother).trans (hp.slot target hmem).symm
    rw [← hscope, List.contains_iff_mem] at hfree
    refine ⟨[_], hscope ▸ hn.rename (hp.roots hmem) (hp.waiting target hmem)
      ⟨other, hp.roots hother, hkey, hslot⟩ hfree, ?_, fun e he e' he' hee => ?_⟩
    · rw [List.forall_mem_singleton]
      exact hmem
    · simp only [List.map_cons, List.map_nil, List.mem_singleton]
      -- two roots of a pair are the pair
      have hpair : ∀ e ∈ [a, b], e.key = a.key ∨ e.key = b.key := by simp +contextual [or_imp]
      have he := hpair e he
      have he' := hpair e' he'
      have hmem := hpair target hmem
      omega

theorem Follows.settle {k : String × String} (hn : n.Follows s rs) (hp : Pending s rs k group) :
    ∃ new, Follows s (rs ++ new) (n.settle k.1 group) ∧ Parts group new := by
  unfold TypeNaming.settle
  split
  case h_1 => exact ⟨[], by rwa [List.append_nil], .nil⟩
  case h_2 e =>
    refine ⟨[], by rwa [List.append_nil], fun r hr => ?_, fun e he e' he' hne => ?_⟩
    · exact absurd hr List.not_mem_nil
    · rw [List.mem_singleton.mp he, List.mem_singleton.mp he'] at hne
      contradiction
  case h_3 a b =>
    cases htold : n.tellApart? k.1 a b with
    | none => exact hn.numberOthers hp
    | some n' => exact hn.tellApart hp htold
  case h_4 => exact hn.numberOthers hp

end TypeNaming

namespace Store

variable {s : Store}

/-- The roots of a slot. -/
def clashing (s : Store) (k : String × String) : List Entry :=
  s.roots.filter (s.slot · == k)

/-- Naming starts with the keys of all roots taken. -/
def startNaming (s : Store) : TypeNaming where
  store := s
  taken := (s.roots.map s.scopeOf).eraseDups.map fun scope =>
    (scope, (s.roots.filter (s.scopeOf · == scope)).map (Name.key ·.type.name))

/-- Naming goes through the slots in the order of first mention. -/
theorem nameTypes_eq (s : Store) : s.nameTypes =
    ((s.roots.map s.slot).eraseDups.foldl (fun (n : TypeNaming) k => n.settle k.1 (s.clashing k))
      s.startNaming).store := by
  simp only [nameTypes, startNaming, clashing, List.map_map, List.filter_map, Function.comp_def,
    List.map_id']
  rfl

theorem key_mem_startNaming {e : Entry} (he : e ∈ s.roots) :
    Name.key e.type.name ∈ s.startNaming.takenIn (s.scopeOf e) := by
  have hlookup : ∀ (scopes : List String) (f : String → List String), s.scopeOf e ∈ scopes →
      (scopes.map fun scope => (scope, f scope)).lookup (s.scopeOf e) = some (f (s.scopeOf e)) := by
    intro scopes f hmem
    induction scopes with
    | nil => exact absurd hmem List.not_mem_nil
    | cons scope scopes ih =>
      rw [List.map_cons, List.lookup_cons]
      by_cases hscope : s.scopeOf e = scope
      · simp [hscope]
      · rw [beq_false_of_ne hscope]
        exact ih ((List.mem_cons.mp hmem).resolve_left hscope)
  unfold TypeNaming.takenIn startNaming
  rw [hlookup _ _ (List.mem_eraseDups.mpr (List.mem_map_of_mem he)), Option.getD_some]
  exact List.mem_map_of_mem (f := fun e : Entry => Name.key e.type.name)
    (List.mem_filter.mpr ⟨he, beq_self_eq_true _⟩)

theorem mem_clashing_iff {e : Entry} {k : String × String} :
    e ∈ s.clashing k ↔ e ∈ s.roots ∧ s.slot e = k := by
  simp [clashing]

/-- The slots still to come have roots that are not renamed yet; those that are done are settled. -/
theorem follows_settle_all (hkeys : (s.roots.map (·.key)).Nodup) {n : TypeNaming} {rs : List Renaming}
    {ks : List (String × String)} (hks : ks.Nodup) (hn : n.Follows s rs)
    (hlater : ∀ r ∈ rs, s.slot r.entry ∉ ks) :
    ∃ rs', TypeNaming.Follows s rs'
      (ks.foldl (fun (n : TypeNaming) k => n.settle k.1 (s.clashing k)) n) ∧ rs ⊆ rs' ∧
      ∀ e ∈ s.roots, ∀ e' ∈ s.roots, e.key ≠ e'.key → s.slot e = s.slot e' → s.slot e ∈ ks →
        e.key ∈ rs'.map (·.entry.key) ∨ e'.key ∈ rs'.map (·.entry.key) := by
  induction ks generalizing n rs with
  | nil => exact ⟨rs, hn, List.Subset.refl _, fun _ _ _ _ _ _ hmem => absurd hmem List.not_mem_nil⟩
  | cons k ks ih =>
    obtain ⟨hk, hks⟩ := List.nodup_cons.mp hks
    have hpending : TypeNaming.Pending s rs k (s.clashing k) := by
      refine ⟨List.filter_subset_self _, hkeys.sublist (List.filter_sublist.map _),
        fun e he => (mem_clashing_iff.mp he).2, fun e he hmem => ?_⟩
      obtain ⟨r, hr, hkey⟩ := List.mem_map.mp hmem
      obtain ⟨he, hslot⟩ := mem_clashing_iff.mp he
      obtain rfl := List.inj_on_of_nodup_map hkeys (hn.plan.roots r hr) he hkey
      exact hlater r hr (hslot ▸ List.mem_cons_self)
    obtain ⟨new, hfollows, hparts⟩ := hn.settle hpending
    have hlater' : ∀ r ∈ rs ++ new, s.slot r.entry ∉ ks := by
      intro r hr
      obtain hr | hr := List.mem_append.mp hr
      · exact fun hmem => hlater r hr (List.mem_cons_of_mem _ hmem)
      · rw [(mem_clashing_iff.mp (hparts.entries r hr)).2]
        exact hk
    obtain ⟨rs', hend, hsub, hsettled⟩ := ih hks hfollows hlater'
    refine ⟨rs', hend, List.Subset.trans (List.subset_append_left _ _) hsub,
      fun e he e' he' hne hslot hmem => ?_⟩
    obtain hmem | hmem := List.mem_cons.mp hmem
    · have hnew : new.map (·.entry.key) ⊆ rs'.map (·.entry.key) :=
        List.map_subset _ (List.Subset.trans (List.subset_append_right _ _) hsub)
      have he := mem_clashing_iff.mpr ⟨he, hmem⟩
      have he' := mem_clashing_iff.mpr ⟨he', hslot.symm.trans hmem⟩
      exact (hparts.settled e he e' he' hne).imp (fun h => hnew h) fun h => hnew h
    · exact hsettled e he e' he' hne hslot hmem

/-- A run of naming comes down to a plan that settles every clash. -/
theorem exists_plan (hkeys : (s.roots.map (·.key)).Nodup) :
    ∃ rs, s.Plan rs ∧ s.Settling rs ∧ s.nameTypes = s.renameAll rs := by
  have hstart : s.startNaming.Follows s [] :=
    ⟨⟨by simp, by simp, by simp, by simp, by simp⟩, rfl, fun e he => key_mem_startNaming he, by simp⟩
  obtain ⟨rs, hend, -, hsettled⟩ :=
    follows_settle_all hkeys (Lists.nodup_eraseDups (s.roots.map s.slot)) hstart (by simp)
  refine ⟨rs, hend.plan, fun e he e' he' hne hslot => ?_, (nameTypes_eq s).trans hend.store⟩
  exact hsettled e he e' he' hne hslot (List.mem_eraseDups.mpr (List.mem_map_of_mem he))

end Store

end Schemata
