import Mathlib.Data.List.Sigma
import Schemata.Proofs.Inherit.Heritage
import Schemata.Proofs.Lists
import Schemata.Unique.FieldNames

/-!
# Field names that are told apart

Naming goes through the groups of fields whose names have one key and takes a key for every name that
it gives. So it comes down to a list of renames: every position at most once, by names whose keys no
field has and no other rename gives. All but one field of a group are on it, and whatever is alone
with its key is not.
-/

namespace Schemata

variable {fs : List Field} {rs : List (Nat × String)} {n n' : FieldNaming} {places : List Nat}
  {i j : Nat} {k name : String} {f : Field}

-- ---------------------------------------------------------------------------
-- Groups
-- ---------------------------------------------------------------------------

/-- The positions of the fields whose names have a key. -/
def keyPlaces (fs : List Field) (k : String) : List Nat :=
  (fs.zipIdx.filter (·.1.key == k)).map (·.2)

theorem sameKeys_eq (fs : List Field) :
    sameKeys fs = ((fs.map Field.key).eraseDups).map (keyPlaces fs) := by
  have hkeys : (fs.zipIdx.map fun p => (Name.key p.1.name, p.2)).map (·.1) = fs.map Field.key := by
    conv_rhs => rw [← List.zipIdx_map_fst 0 fs, List.map_map]
    rw [List.map_map]
    rfl
  unfold sameKeys
  dsimp only
  rw [hkeys]
  refine List.map_congr_left fun k _ => ?_
  rw [List.filter_map, List.map_map]
  rfl

theorem mem_keyPlaces_iff : i ∈ keyPlaces fs k ↔ ∃ f, fs[i]? = some f ∧ f.key = k := by
  simp only [keyPlaces, List.mem_map, List.mem_filter, List.mem_zipIdx_iff_getElem?, beq_iff_eq,
    Prod.exists, exists_eq_right]

theorem nodup_keyPlaces (fs : List Field) (k : String) : (keyPlaces fs k).Nodup :=
  (List.filter_sublist.map _).nodup (List.nodup_zipIdx_map_snd fs)

-- ---------------------------------------------------------------------------
-- Renames
-- ---------------------------------------------------------------------------

/-- The fields with new names for those at some positions. -/
def renameAt (fs : List Field) (rs : List (Nat × String)) : List Field :=
  fs.mapIdx fun i f => ((rs.lookup i).map f.rename).getD f

theorem getElem?_renameAt (hf : fs[i]? = some f) :
    (renameAt fs rs)[i]? = some (((rs.lookup i).map f.rename).getD f) := by
  rw [renameAt, List.getElem?_mapIdx, hf, Option.map_some]

theorem lookup_eq_none (hi : i ∉ rs.map (·.1)) : rs.lookup i = none :=
  List.lookup_eq_none_iff.mpr fun _ hr => bne_iff_ne.mpr fun heq => hi (heq ▸ List.mem_map_of_mem hr)

theorem mem_of_lookup (h : rs.lookup i = some name) : (i, name) ∈ rs := by
  obtain ⟨_, _, rfl, -⟩ := List.lookup_eq_some_iff.mp h
  exact List.mem_append_right _ List.mem_cons_self

theorem exists_lookup (hi : i ∈ rs.map (·.1)) : ∃ name, rs.lookup i = some name := by
  refine Option.ne_none_iff_exists'.mp fun hnone => ?_
  obtain ⟨r, hr, rfl⟩ := List.mem_map.mp hi
  simpa using List.lookup_eq_none_iff.mp hnone r hr

theorem modify_renameAt (hi : i ∉ rs.map (·.1)) (name : String) :
    (renameAt fs rs).modify i (·.rename name) = renameAt fs ((i, name) :: rs) := by
  refine List.ext_getElem? fun j => ?_
  simp only [List.getElem?_modify, renameAt, List.getElem?_mapIdx, List.lookup_cons]
  by_cases hj : i = j
  · subst hj
    simp [lookup_eq_none hi]
  · have hne : (j == i) = false := beq_eq_false_iff_ne.mpr (Ne.symm hj)
    simp [hj, hne]

namespace FieldNaming

/-- Naming has come to a list of renames, and the keys of all names, old and new, are taken. -/
structure Follows (fs : List Field) (rs : List (Nat × String)) (n : FieldNaming) : Prop where
  fields : n.fields = renameAt fs rs
  held : ∀ f ∈ fs, f.key ∈ n.taken
  given : ∀ r ∈ rs, Name.key r.2 ∈ n.taken
  once : (rs.map (·.1)).Nodup
  new : ∀ r ∈ rs, ∀ f ∈ fs, f.key ≠ Name.key r.2
  apart : (rs.map fun r => Name.key r.2).Nodup

theorem Follows.start (fs : List Field) :
    Follows fs [] { fields := fs, taken := fs.map fun f => Name.key f.name } where
  fields := by
    refine List.ext_getElem? fun i => ?_
    simp [renameAt]
  held _ hf := List.mem_map_of_mem hf
  given _ hr := absurd hr List.not_mem_nil
  once := List.nodup_nil
  new _ hr := absurd hr List.not_mem_nil
  apart := List.nodup_nil

/-- A field gets a name whose key is free, and the key is taken. -/
theorem Follows.rename (hn : n.Follows fs rs) (hi : i ∉ rs.map (·.1)) (hfree : Name.key name ∉ n.taken) :
    Follows fs ((i, name) :: rs) ({ n with taken := Name.key name :: n.taken }.rename i name) where
  fields := by
    rw [← modify_renameAt hi, ← hn.fields]
    rfl
  held f hf := List.mem_cons_of_mem _ (hn.held f hf)
  given := List.forall_mem_cons.mpr
    ⟨List.mem_cons_self, fun r hr => List.mem_cons_of_mem _ (hn.given r hr)⟩
  once := List.nodup_cons.mpr ⟨hi, hn.once⟩
  new := List.forall_mem_cons.mpr ⟨fun f hf heq => hfree (heq ▸ hn.held f hf), hn.new⟩
  apart := by
    refine List.nodup_cons.mpr ⟨fun hmem => ?_, hn.apart⟩
    obtain ⟨r, hr, hkey⟩ := List.mem_map.mp hmem
    have hkey : Name.key r.2 = Name.key name := hkey
    exact hfree (hkey ▸ hn.given r hr)

theorem Follows.rename? (hn : n.Follows fs rs) (hi : i ∉ rs.map (·.1))
    (h : n.rename? i name = some n') : n'.Follows fs ((i, name) :: rs) := by
  unfold FieldNaming.rename? at h
  dsimp only at h
  split at h
  case isTrue => cases h
  case isFalse hfree =>
    obtain rfl := Option.some.inj h
    exact hn.rename hi (by simpa using hfree)

theorem Follows.number (hn : n.Follows fs rs) (hi : i ∉ rs.map (·.1)) :
    ∃ name, (n.number i).Follows fs ((i, name) :: rs) :=
  ⟨_, hn.rename hi (Name.key_nextFree_not_mem _ _)⟩

/-- Of two fields that are told apart one is renamed. -/
theorem Follows.tellApart? (hn : n.Follows fs rs) (hi : i ∉ rs.map (·.1)) (hj : j ∉ rs.map (·.1))
    (h : n.tellApart? i j = some n') :
    ∃ name, n'.Follows fs ((i, name) :: rs) ∨ n'.Follows fs ((j, name) :: rs) := by
  unfold FieldNaming.tellApart? at h
  dsimp only at h
  split at h
  case isTrue =>
    split at h
    · exact ⟨_, .inl (hn.rename? hi h)⟩
    · exact ⟨_, .inr (hn.rename? hj h)⟩
  case isFalse =>
    split at h
    · split at h
      · cases h
      · exact ⟨_, .inr (hn.rename? hj h)⟩
    · cases h

theorem Follows.numberAll (hn : n.Follows fs rs) (hplaces : places.Nodup)
    (hwaiting : ∀ i ∈ places, i ∉ rs.map (·.1)) :
    ∃ new, (places.foldl FieldNaming.number n).Follows fs (new ++ rs) ∧
      ∀ j, j ∈ new.map (·.1) ↔ j ∈ places := by
  induction places generalizing n rs with
  | nil => exact ⟨[], hn, fun _ => Iff.rfl⟩
  | cons i places ih =>
    obtain ⟨hi, hplaces⟩ := List.nodup_cons.mp hplaces
    obtain ⟨hwaitingi, hwaiting⟩ := List.forall_mem_cons.mp hwaiting
    obtain ⟨name, hnumber⟩ := hn.number hwaitingi
    obtain ⟨new, hfollows, hnew⟩ := ih hnumber hplaces fun j hj hmem => by
      obtain rfl | hmem := List.mem_cons.mp hmem
      · exact hi hj
      · exact hwaiting j hj hmem
    refine ⟨new ++ [(i, name)], by rwa [List.append_assoc, List.singleton_append], fun j => ?_⟩
    rw [List.map_append, List.mem_append, hnew, List.mem_cons, or_comm]
    simp

/-- All fields of a group but one are renamed. -/
theorem Follows.settle (hn : n.Follows fs rs) (hplaces : places.Nodup) (hsome : places ≠ [])
    (hwaiting : ∀ i ∈ places, i ∉ rs.map (·.1)) :
    ∃ new, (n.settle places).Follows fs (new ++ rs) ∧
      ∃ keeper ∈ places, ∀ j, j ∈ new.map (·.1) ↔ j ∈ places ∧ j ≠ keeper := by
  unfold FieldNaming.settle
  split
  case h_1 i j =>
    obtain ⟨hij, -⟩ := List.nodup_cons.mp hplaces
    rw [List.mem_singleton] at hij
    obtain ⟨hi, hj⟩ := List.forall_mem_cons.mp hwaiting
    rw [List.forall_mem_singleton] at hj
    -- which of the two is renamed, and which one keeps its name
    have hone : ∃ name, ((n.tellApart? i j).getD (n.number j)).Follows fs ((i, name) :: rs) ∨
        ((n.tellApart? i j).getD (n.number j)).Follows fs ((j, name) :: rs) := by
      cases htold : n.tellApart? i j with
      | none =>
        obtain ⟨name, hnumber⟩ := hn.number hj
        exact ⟨name, .inr hnumber⟩
      | some n' => exact hn.tellApart? hi hj htold
    obtain ⟨name, hfirst | hsecond⟩ := hone
    · refine ⟨[(i, name)], hfirst, j, by simp, fun x => ?_⟩
      simp only [List.map_cons, List.map_nil, List.mem_cons, List.not_mem_nil, or_false]
      exact ⟨fun hx => ⟨.inl hx, hx ▸ hij⟩, fun hx => hx.1.resolve_right hx.2⟩
    · refine ⟨[(j, name)], hsecond, i, by simp, fun x => ?_⟩
      simp only [List.map_cons, List.map_nil, List.mem_cons, List.not_mem_nil, or_false]
      exact ⟨fun hx => ⟨.inr hx, hx ▸ Ne.symm hij⟩, fun hx => hx.1.resolve_left hx.2⟩
  case h_2 =>
    cases places with
    | nil => exact absurd rfl hsome
    | cons i places =>
      obtain ⟨hi, hplaces⟩ := List.nodup_cons.mp hplaces
      obtain ⟨new, hfollows, hnew⟩ := hn.numberAll hplaces (List.forall_mem_cons.mp hwaiting).2
      refine ⟨new, hfollows, i, List.mem_cons_self, fun x => ?_⟩
      rw [hnew, List.mem_cons]
      constructor
      · exact fun hx => ⟨.inr hx, fun heq => hi (heq ▸ hx)⟩
      · exact fun hx => hx.1.resolve_left hx.2

/-- What naming has made of the groups of some keys: one field of each keeps its name. -/
def Settled (fs : List Field) (rs : List (Nat × String)) (k : String) : Prop :=
  ∃ keeper ∈ keyPlaces fs k, ∀ j ∈ keyPlaces fs k, j ∈ rs.map (·.1) ↔ j ≠ keeper

theorem Follows.settleAll {keys : List String} (hn : n.Follows fs rs) (hkeys : keys.Nodup)
    (hsub : keys ⊆ fs.map Field.key) (hwaiting : ∀ k ∈ keys, ∀ i ∈ keyPlaces fs k, i ∉ rs.map (·.1)) :
    ∃ new, ((keys.map (keyPlaces fs)).foldl FieldNaming.settle n).Follows fs (new ++ rs) ∧
      (∀ j ∈ new.map (·.1), ∃ k ∈ keys, j ∈ keyPlaces fs k) ∧
      ∀ k ∈ keys, Settled fs (new ++ rs) k := by
  induction keys generalizing n rs with
  | nil => exact ⟨[], hn, by simp, by simp⟩
  | cons k keys ih =>
    obtain ⟨hk, hkeys⟩ := List.nodup_cons.mp hkeys
    obtain ⟨hfirst, hsub⟩ := List.cons_subset.mp hsub
    obtain ⟨hwaitingk, hwaiting⟩ := List.forall_mem_cons.mp hwaiting
    have hsome : keyPlaces fs k ≠ [] := by
      obtain ⟨f, hf, hkey⟩ := List.mem_map.mp hfirst
      obtain ⟨i, hi⟩ := List.mem_iff_getElem?.mp hf
      exact List.ne_nil_of_mem (mem_keyPlaces_iff.mpr ⟨f, hi, hkey⟩)
    -- a position belongs to the group of one key
    have hother : ∀ {k' i}, k' ∈ keys → i ∈ keyPlaces fs k' → i ∉ keyPlaces fs k := by
      intro k' i hk' hi hmem
      obtain ⟨f, hf, rfl⟩ := mem_keyPlaces_iff.mp hi
      obtain ⟨g, hg, rfl⟩ := mem_keyPlaces_iff.mp hmem
      obtain rfl : f = g := Option.some.inj (hf.symm.trans hg)
      exact hk hk'
    obtain ⟨first, hsettle, keeper, hkeeper, hgroup⟩ := hn.settle (nodup_keyPlaces fs k) hsome hwaitingk
    obtain ⟨rest, hfollows, hplaced, hsettled⟩ := ih hsettle hkeys hsub fun k' hk' i hi hmem => by
      rw [List.map_append, List.mem_append, hgroup] at hmem
      exact hmem.elim (fun h => hother hk' hi h.1) (hwaiting k' hk' i hi)
    rw [← List.append_assoc] at hfollows hsettled
    refine ⟨rest ++ first, hfollows, fun j hj => ?_, List.forall_mem_cons.mpr ⟨?_, hsettled⟩⟩
    · rw [List.map_append, List.mem_append, hgroup] at hj
      obtain hj | hj := hj
      · obtain ⟨k', hk', hj⟩ := hplaced j hj
        exact ⟨k', List.mem_cons_of_mem _ hk', hj⟩
      · exact ⟨k, List.mem_cons_self, hj.1⟩
    · refine ⟨keeper, hkeeper, fun j hj => ?_⟩
      rw [List.append_assoc, List.map_append, List.map_append, List.mem_append, List.mem_append, hgroup]
      constructor
      · rintro (hrest | hj | hold)
        · obtain ⟨k', hk', hj'⟩ := hplaced j hrest
          exact absurd hj (hother hk' hj')
        · exact hj.2
        · exact absurd hold (hwaitingk j hj)
      · exact fun hne => .inr (.inl ⟨hj, hne⟩)

end FieldNaming

/-- Naming fields comes to renames that settle the group of every key. -/
theorem follows_nameFields (fs : List Field) :
    ∃ rs, (nameFields fs).Follows fs rs ∧ ∀ k ∈ fs.map Field.key, FieldNaming.Settled fs rs k := by
  have hsub : (fs.map Field.key).eraseDups ⊆ fs.map Field.key := fun k hk => List.mem_eraseDups.mp hk
  obtain ⟨rs, hfollows, -, hsettled⟩ := (FieldNaming.Follows.start fs).settleAll
    (Lists.nodup_eraseDups _) hsub fun _ _ _ _ => List.not_mem_nil
  rw [List.append_nil] at hfollows hsettled
  refine ⟨rs, ?_, fun k hk => hsettled k (List.mem_eraseDups.mpr hk)⟩
  rw [nameFields, sameKeys_eq]
  exact hfollows

-- ---------------------------------------------------------------------------
-- Fields that are told apart
-- ---------------------------------------------------------------------------

/-- A field under another name. Nothing else changes, and the name that it had first is kept. -/
structure Field.Renamed (f f' : Field) : Prop where
  name : f'.name ≠ f.name
  rest : f' = { f with name := f'.name, localName := if f.localName = "" then f.name else f.localName }

/-- Fields, in their order, whose names have been told apart. -/
structure ToldApart (fs fs' : List Field) : Prop where
  keys : (fs'.map Field.key).Nodup
  each : List.Forall₂ (fun f f' => f' = f ∨ f.Renamed f') fs fs'
  /-- Of the fields of a key exactly one keeps its name. -/
  keeper : ∀ f ∈ fs, ∃! i : Nat, ∃ g : Field, fs[i]? = some g ∧ g.key = f.key ∧ fs'[i]? = some g
  /-- A field that is alone with its key stays as it is. -/
  alone : ∀ (i : Nat) (f : Field), fs[i]? = some f →
    (∀ (j : Nat) (g : Field), fs[j]? = some g → g.key = f.key → j = i) → fs'[i]? = some f

namespace FieldNaming.Follows

theorem renamed (hn : n.Follows fs rs) (hf : fs[i]? = some f) (hname : rs.lookup i = some name) :
    f.Renamed (f.rename name) := by
  refine ⟨fun heq => ?_, rfl⟩
  exact hn.new _ (mem_of_lookup hname) f (List.mem_of_getElem? hf) (congrArg Name.key heq.symm)

theorem getElem?_fields (hn : n.Follows fs rs) (hf : fs[i]? = some f) :
    n.fields[i]? = some (((rs.lookup i).map f.rename).getD f) :=
  hn.fields ▸ getElem?_renameAt hf

/-- A field is on the list exactly if it does not stay as it is. -/
theorem fields_eq_iff (hn : n.Follows fs rs) (hf : fs[i]? = some f) :
    n.fields[i]? = some f ↔ i ∉ rs.map (·.1) := by
  rw [hn.getElem?_fields hf]
  by_cases hi : i ∈ rs.map (·.1)
  · obtain ⟨name, hname⟩ := exists_lookup hi
    rw [hname, Option.map_some, Option.getD_some]
    refine iff_of_false (fun heq => (hn.renamed hf hname).name ?_) (not_not_intro hi)
    exact congrArg Field.name (Option.some.inj heq)
  · rw [lookup_eq_none hi]
    exact iff_of_true rfl hi

theorem each (hn : n.Follows fs rs) : List.Forall₂ (fun f f' => f' = f ∨ f.Renamed f') fs n.fields := by
  rw [hn.fields]
  refine Lists.forall₂_mapIdx fun i f hf => ?_
  cases hname : rs.lookup i with
  | none => exact .inl rfl
  | some name => exact .inr (hn.renamed hf hname)

/-- Two fields with one key would be two of one group, or one of them would have a key that is new. -/
theorem keys (hn : n.Follows fs rs) (hsettled : ∀ k ∈ fs.map Field.key, Settled fs rs k) :
    (n.fields.map Field.key).Nodup := by
  rw [hn.fields, renameAt, List.Nodup, List.pairwise_map, List.pairwise_iff_getElem]
  intro i j hi hj hij heq
  rw [List.length_mapIdx] at hi hj
  simp only [List.getElem_mapIdx] at heq
  have hfi := List.getElem?_eq_getElem hi
  have hfj := List.getElem?_eq_getElem hj
  generalize fs[i] = f at heq hfi
  generalize fs[j] = g at heq hfj
  have hf := List.mem_of_getElem? hfi
  have hg := List.mem_of_getElem? hfj
  cases hnamei : rs.lookup i with
  | none =>
    cases hnamej : rs.lookup j with
    | none =>
      rw [hnamei, hnamej] at heq
      have hkey : g.key = f.key := heq.symm
      obtain ⟨keeper, -, hall⟩ := hsettled f.key (List.mem_map_of_mem hf)
      have hstays : ∀ {x}, x ∈ keyPlaces fs f.key → rs.lookup x = none → x = keeper := by
        intro x hx hnone
        refine not_not.mp fun hne => ?_
        obtain ⟨_, hname⟩ := exists_lookup ((hall x hx).mpr hne)
        exact Option.some_ne_none _ (hname.symm.trans hnone)
      have hieq := hstays (mem_keyPlaces_iff.mpr ⟨f, hfi, rfl⟩) hnamei
      have hjeq := hstays (mem_keyPlaces_iff.mpr ⟨g, hfj, hkey⟩) hnamej
      omega
    | some name =>
      rw [hnamei, hnamej] at heq
      exact hn.new _ (mem_of_lookup hnamej) f hf heq
  | some name =>
    have hmemi := mem_of_lookup hnamei
    cases hnamej : rs.lookup j with
    | none =>
      rw [hnamei, hnamej] at heq
      exact hn.new _ hmemi g hg heq.symm
    | some name' =>
      rw [hnamei, hnamej] at heq
      have hsame := List.inj_on_of_nodup_map hn.apart hmemi (mem_of_lookup hnamej) heq
      have := congrArg Prod.fst hsame
      dsimp only at this
      omega

end FieldNaming.Follows

theorem toldApart_nameFields (fs : List Field) : ToldApart fs (nameFields fs).fields := by
  obtain ⟨rs, hn, hsettled⟩ := follows_nameFields fs
  refine ⟨hn.keys hsettled, hn.each, fun f hf => ?_, fun i f hf halone => ?_⟩
  · obtain ⟨keeper, hkeeper, hall⟩ := hsettled f.key (List.mem_map_of_mem hf)
    refine ⟨keeper, ?_, ?_⟩
    · obtain ⟨g, hg, hkey⟩ := mem_keyPlaces_iff.mp hkeeper
      refine ⟨g, hg, hkey, (hn.fields_eq_iff hg).mpr ?_⟩
      rw [hall keeper hkeeper]
      exact not_not_intro rfl
    · rintro i ⟨g, hg, hkey, hstays⟩
      have hnot := (hn.fields_eq_iff hg).mp hstays
      rwa [hall i (mem_keyPlaces_iff.mpr ⟨g, hg, hkey⟩), not_not] at hnot
  · obtain ⟨keeper, hkeeper, hall⟩ := hsettled f.key (List.mem_map_of_mem (List.mem_of_getElem? hf))
    obtain ⟨g, hg, hkey⟩ := mem_keyPlaces_iff.mp hkeeper
    obtain rfl := halone keeper g hg hkey
    rw [hn.fields_eq_iff hf, hall keeper hkeeper]
    exact not_not_intro rfl

/-- A field with other choices: if there are two or more their names have been told apart. -/
def Field.ChoicesToldApart (f f' : Field) : Prop :=
  ∃ choices, f' = { f with choices } ∧
    if 2 ≤ f.choices.length then ToldApart f.choices choices else choices = f.choices

/-- The names of the fields of a type are told apart, and in turn those of the choices of each field.
Nothing else changes. -/
theorem SchemaType.nameFields_tells_apart (t : SchemaType) : ∃ named fields,
    t.nameFields.1 = { t with fields } ∧
    ToldApart t.fields named ∧ List.Forall₂ Field.ChoicesToldApart named fields ∧
    (fields.map Field.key).Nodup ∧
    ∀ f ∈ fields, 2 ≤ f.choices.length → (f.choices.map Field.key).Nodup := by
  have htold := toldApart_nameFields t.fields
  have hchoices : List.Forall₂ Field.ChoicesToldApart (Schemata.nameFields t.fields).fields
      t.nameFields.1.fields := by
    refine List.forall₂_map_right_iff.mpr (List.forall₂_same.mpr fun f _ => ?_)
    by_cases hseveral : 2 ≤ f.choices.length
    · refine ⟨(Schemata.nameFields f.choices).fields, if_pos hseveral, ?_⟩
      rw [if_pos hseveral]
      exact toldApart_nameFields f.choices
    · refine ⟨f.choices, (if_neg hseveral).trans ?_, by rw [if_neg hseveral]⟩
      cases f
      rfl
  refine ⟨_, t.nameFields.1.fields, rfl, htold, hchoices, ?_, fun f' hf' hseveral => ?_⟩
  · have hkeys : t.nameFields.1.fields.map Field.key =
        (Schemata.nameFields t.fields).fields.map Field.key := by
      refine List.map_map.trans (List.map_congr_left fun f _ => ?_)
      rw [Function.comp_apply]
      split <;> rfl
    exact hkeys ▸ htold.keys
  · obtain ⟨f, -, choices, rfl, hsplit⟩ := Lists.exists_mem_of_forall₂ hchoices hf'
    split at hsplit
    case isTrue => exact hsplit.keys
    case isFalse hfew => exact absurd (hsplit ▸ hseveral) hfew

end Schemata
