import Schemata.Proofs.Inherit.Ancestry
import Schemata.Proofs.Step.WeakestPre
import Schemata.Proofs.Unique.FieldNames

/-!
# Genuine overrides

A check of overrides goes through the fields of a type and keeps, drops or renames each of them by
what is inherited of its key. New names are those that neither a field nor anything inherited has, so
a field that is left under an inherited key is one that has been kept: it stands for the inherited one
and differs from it.
-/

namespace Schemata

open Compile SchemaType

variable {s : Store} {t owner : SchemaType} {f f' base : Field} {fs fs' done : List Field}
  {inherited : List (String × Field)} {legacy : String → Option Field} {c : OverrideCheck} {k : String}

-- ---------------------------------------------------------------------------
-- One field
-- ---------------------------------------------------------------------------

namespace Field

/-- The fields are both attributes or both none, in one namespace. -/
structure Matches (f base : Field) : Prop where
  construct : f.isAttribute = base.isAttribute
  ns : f.ns = base.ns

theorem overrides_iff : f.overrides base = true ↔ f.Matches base := by
  rw [overrides, Bool.and_eq_true, beq_iff_eq, beq_iff_eq]
  exact ⟨fun h => ⟨h.1, h.2⟩, fun h => ⟨h.construct, h.ns⟩⟩

theorem Matches.restates_iff (h : f.Matches base) : f.restates base = true ↔ f.face = base.face := by
  simp only [restates, face, Face.mk.injEq, Bool.and_eq_true, beq_iff_eq, h.ns, true_and, and_assoc]

/-- What becomes of a field among those of a type, given what is inherited of each key. -/
inductive Fate (legacy : String → Option Field) (fs : List Field) (f : Field) : Option Field → Prop
  | own (hnone : legacy f.key = none) (hallowed : f.isProhibited = false) : Fate legacy fs f (some f)
  | genuine {base : Field} (hbase : legacy f.key = some base) (hmatches : f.Matches base)
      (hallowed : f.isProhibited = false) (hface : f.face ≠ base.face) : Fate legacy fs f (some f)
  | prohibited (hmatches : ∀ base, legacy f.key = some base → f.Matches base)
      (hprohibited : f.isProhibited = true) : Fate legacy fs f none
  | restates {base : Field} (hbase : legacy f.key = some base) (hmatches : f.Matches base)
      (hface : f.face = base.face) : Fate legacy fs f none
  | renamed {base f' : Field} (hbase : legacy f.key = some base) (hconflict : ¬ f.Matches base)
      (hrenamed : f.Renamed f') (hfree : legacy f'.key = none) (hnew : ∀ g ∈ fs, g.key ≠ f'.key) :
      Fate legacy fs f (some f')

namespace Fate

theorem genuine_of_legacy (h : f.Fate legacy fs (some f')) (hbase : legacy f'.key = some base) :
    f'.Matches base ∧ f'.face ≠ base.face := by
  cases h with
  | own hnone => exact absurd (hnone.symm.trans hbase) (Option.some_ne_none _).symm
  | genuine hbase' hmatches _ hface =>
    obtain rfl := Option.some.inj (hbase'.symm.trans hbase)
    exact ⟨hmatches, hface⟩
  | renamed _ _ _ hfree => exact absurd (hfree.symm.trans hbase) (Option.some_ne_none _).symm

theorem renamed_of_prohibited (h : f.Fate legacy fs (some f')) (hprohibited : f'.isProhibited = true) :
    f.Renamed f' ∧ ∃ base, legacy f.key = some base ∧ ¬ f.Matches base := by
  cases h with
  | own _ hallowed => exact absurd (hallowed.symm.trans hprohibited) Bool.false_ne_true
  | genuine _ _ hallowed => exact absurd (hallowed.symm.trans hprohibited) Bool.false_ne_true
  | renamed hbase hconflict hrenamed => exact ⟨hrenamed, _, hbase, hconflict⟩

end Fate

end Field

-- ---------------------------------------------------------------------------
-- All fields
-- ---------------------------------------------------------------------------

/-- What a check has made of the fields that it has come to, among those of a type. The keys of all
fields, of all that is inherited and of all that is kept are taken. -/
structure OverrideCheck.Follows (legacy : String → Option Field) (fs done : List Field)
    (c : OverrideCheck) : Prop where
  fates : ∃ fates, List.Forall₂ (Field.Fate legacy fs) done fates ∧ c.kept = fates.filterMap id
  inherits : ∀ k, (legacy k).isSome → k ∈ c.taken
  owns : ∀ f ∈ fs, f.key ∈ c.taken
  given : ∀ f ∈ c.kept, f.key ∈ c.taken
  keys : (c.kept.map Field.key).Nodup

theorem nodup_keys_append {kept : List Field} (hkept : (kept.map Field.key).Nodup)
    (hnew : ∀ g ∈ kept, g.key ≠ f.key) : ((kept ++ [f]).map Field.key).Nodup := by
  rw [List.map_append, List.map_singleton, ← List.concat_eq_append]
  refine hkept.concat fun hmem => ?_
  obtain ⟨g, hg, hkey⟩ := List.mem_map.mp hmem
  exact hnew g hg hkey

namespace OverrideCheck.Follows

/-- What is kept has the key of a field that the check has come to, or a new one. -/
theorem origin (h : c.Follows legacy fs done) (hf' : f' ∈ c.kept) :
    f' ∈ done ∨ ∀ g ∈ fs, g.key ≠ f'.key := by
  obtain ⟨fates, hfates, hkept⟩ := h.fates
  rw [hkept, List.mem_filterMap] at hf'
  obtain ⟨_, hmem, rfl⟩ := hf'
  obtain ⟨f, hf, hfate⟩ := Lists.exists_mem_of_forall₂ hfates hmem
  cases hfate with
  | own => exact .inl hf
  | genuine => exact .inl hf
  | renamed _ _ _ _ hnew => exact .inr hnew

theorem drop {notes : List Diagnostic} (h : c.Follows legacy fs done) (hfate : f.Fate legacy fs none) :
    Follows legacy fs (done ++ [f]) { c with notes } where
  fates := by
    obtain ⟨fates, hfates, hkept⟩ := h.fates
    exact ⟨fates ++ [none], List.rel_append hfates (.cons hfate .nil), by simp [hkept]⟩
  inherits := h.inherits
  owns := h.owns
  given := h.given
  keys := h.keys

theorem keep (h : c.Follows legacy fs done) (hf : f ∈ fs) (hnot : f.key ∉ done.map Field.key)
    (hfate : f.Fate legacy fs (some f)) :
    Follows legacy fs (done ++ [f]) { c with kept := c.kept ++ [f] } where
  fates := by
    obtain ⟨fates, hfates, hkept⟩ := h.fates
    exact ⟨fates ++ [some f], List.rel_append hfates (.cons hfate .nil), by simp [hkept]⟩
  inherits := h.inherits
  owns := h.owns
  given := List.forall_mem_append.mpr ⟨h.given, List.forall_mem_singleton.mpr (h.owns f hf)⟩
  keys := nodup_keys_append h.keys fun g hg hkey => by
    obtain hg | hnew := h.origin hg
    · exact hnot (List.mem_map.mpr ⟨g, hg, hkey⟩)
    · exact hnew f hf hkey.symm

theorem rename {notes : List Diagnostic} (h : c.Follows legacy fs done) (hfree : f'.key ∉ c.taken)
    (hfate : f.Fate legacy fs (some f')) :
    Follows legacy fs (done ++ [f]) ⟨c.kept ++ [f'], f'.key :: c.taken, notes⟩ where
  fates := by
    obtain ⟨fates, hfates, hkept⟩ := h.fates
    exact ⟨fates ++ [some f'], List.rel_append hfates (.cons hfate .nil), by simp [hkept]⟩
  inherits k hk := List.mem_cons_of_mem _ (h.inherits k hk)
  owns g hg := List.mem_cons_of_mem _ (h.owns g hg)
  given := List.forall_mem_append.mpr ⟨fun g hg => List.mem_cons_of_mem _ (h.given g hg),
    List.forall_mem_singleton.mpr List.mem_cons_self⟩
  keys := nodup_keys_append h.keys fun g hg hkey => hfree (hkey ▸ h.given g hg)

theorem step (h : c.Follows (inherited.lookup ·) fs done) (hf : f ∈ fs)
    (hnot : f.key ∉ done.map Field.key) :
    (OverrideCheck.step owner inherited c f).Follows (inherited.lookup ·) fs (done ++ [f]) := by
  unfold OverrideCheck.step
  cases hbase : inherited.lookup f.key with
  | none =>
    dsimp only
    cases hprohibited : f.isProhibited with
    | true => exact h.drop (.prohibited (fun base hb => by simp [hbase] at hb) hprohibited)
    | false => exact h.keep hf hnot (.own hbase hprohibited)
  | some base =>
    dsimp only
    split
    case isTrue hoverrides =>
      have hmatches := Field.overrides_iff.mp hoverrides
      cases hprohibited : f.isProhibited with
      | true =>
        refine h.drop (.prohibited (fun base' hb => ?_) hprohibited)
        exact Option.some.inj (hbase.symm.trans hb) ▸ hmatches
      | false =>
        rw [Bool.false_or]
        split
        case isTrue hrestates =>
          exact h.drop (.restates hbase hmatches (hmatches.restates_iff.mp hrestates))
        case isFalse hchanges =>
          exact h.keep hf hnot (.genuine hbase hmatches hprohibited (mt hmatches.restates_iff.mpr hchanges))
    case isFalse hconflict =>
      have hfree := Name.key_unique_not_mem (f.name ++ "_" ++ f.tag.suffixWord) c.taken
      rw [Name.unique_snd]
      refine h.rename (show (f.rename _).key ∉ c.taken from hfree)
        (.renamed hbase (mt Field.overrides_iff.mpr hconflict) ?_ ?_ ?_)
      · exact ⟨fun hname => hfree (congrArg Name.key hname ▸ h.owns f hf), rfl⟩
      · exact Option.not_isSome_iff_eq_none.mp fun hsome => hfree (h.inherits _ hsome)
      · intro g hg hkey
        exact hfree (Eq.mp (congrArg (· ∈ c.taken) hkey) (h.owns g hg))

theorem foldl {rest : List Field} (h : c.Follows (inherited.lookup ·) fs done)
    (hfs : fs = done ++ rest) (hkeys : (fs.map Field.key).Nodup) :
    (rest.foldl (OverrideCheck.step owner inherited) c).Follows (inherited.lookup ·) fs fs := by
  induction rest generalizing done c with
  | nil =>
    rw [List.append_nil] at hfs
    exact hfs ▸ h
  | cons f rest ih =>
    refine ih (h.step (hfs ▸ List.mem_append_right _ List.mem_cons_self) fun hmem => ?_) (by simp [hfs])
    rw [hfs, List.map_append, List.nodup_append] at hkeys
    exact hkeys.2.2 _ hmem f.key (List.mem_map_of_mem List.mem_cons_self) rfl

end OverrideCheck.Follows

/-- What a check makes of fields, given what is inherited of each key. -/
structure OverridesSettled (legacy : String → Option Field) (fs fs' : List Field) : Prop where
  /-- What shares the key of an inherited field stands for it and differs from it. -/
  genuine : ∀ f ∈ fs', ∀ base, legacy f.key = some base → f.Matches base ∧ f.face ≠ base.face
  /-- What is prohibited is there only under another name, as it was in conflict. -/
  prohibited : ∀ f' ∈ fs', f'.isProhibited = true →
    ∃ f ∈ fs, f.Renamed f' ∧ ∃ base, legacy f.key = some base ∧ ¬ f.Matches base
  keys : (fs'.map Field.key).Nodup
  fates : ∃ fates, List.Forall₂ (Field.Fate legacy fs) fs fates ∧ fs' = fates.filterMap id

theorem OverrideCheck.Follows.settled (h : c.Follows legacy fs fs) : OverridesSettled legacy fs c.kept := by
  obtain ⟨fates, hfates, hkept⟩ := h.fates
  have hfate : ∀ f' ∈ c.kept, ∃ f ∈ fs, f.Fate legacy fs (some f') := by
    intro f' hf'
    rw [hkept, List.mem_filterMap] at hf'
    obtain ⟨_, hmem, rfl⟩ := hf'
    exact Lists.exists_mem_of_forall₂ hfates hmem
  refine ⟨fun f' hf' base hbase => ?_, fun f' hf' hprohibited => ?_, h.keys, h.fates⟩
  · obtain ⟨f, -, hf⟩ := hfate f' hf'
    exact hf.genuine_of_legacy hbase
  · obtain ⟨f, hmem, hf⟩ := hfate f' hf'
    exact ⟨f, hmem, hf.renamed_of_prohibited hprohibited⟩

namespace Store

/-- What a type inherits of a key: the first field of the key among those of its bases. -/
def inherited? (s : Store) (t : SchemaType) (k : String) : Option Field :=
  ((s.lineage t).flatMap (·.fields)).find? (·.key == k)

theorem lookup_inheritedFields_eq (s : Store) (t : SchemaType) (k : String) :
    (s.inheritedFields t).lookup k = s.inherited? t k := by
  rw [lookup_inheritedFields, map_snd_heritage, inherited?]

theorem checkOverrides_settles (s : Store) (hkeys : (t.fields.map Field.key).Nodup) :
    OverridesSettled (s.inherited? t) t.fields (s.checkOverrides t).1 := by
  have hlegacy : ((s.inheritedFields t).lookup ·) = s.inherited? t :=
    funext (s.lookup_inheritedFields_eq t)
  have hstart : OverrideCheck.Follows ((s.inheritedFields t).lookup ·) t.fields []
      { taken := (s.inheritedFields t).map (·.1) ++ t.fields.map fun f => Name.key f.name } := by
    refine ⟨⟨[], .nil, rfl⟩, fun k hk => ?_, fun f hf => ?_, fun _ hf => absurd hf List.not_mem_nil,
      List.nodup_nil⟩
    · obtain ⟨p, hp, rfl⟩ := isSome_lookup_iff.mp hk
      exact List.mem_append_left _ (List.mem_map_of_mem hp)
    · exact List.mem_append_right _ (List.mem_map_of_mem hf)
  have hend : OverridesSettled ((s.inheritedFields t).lookup ·) t.fields (s.checkOverrides t).1 :=
    (hstart.foldl rfl hkeys).settled
  exact hlegacy ▸ hend

-- ---------------------------------------------------------------------------
-- The pass
-- ---------------------------------------------------------------------------

theorem dressed_update_ownDress {status : Status} (hs : s.handles.Nodup) (ht : s.Holds t) :
    t.dressed (Function.update s.ownDress t.id (fs, status)) = { t with fields := fs, status } := by
  have hnodup : t.handles.Nodup := by
    obtain ⟨root, hroot, hwithin⟩ := ht
    exact hwithin.nodup_handles (nodup_handles_of_mem hs hroot)
  have hself : t.dressed s.ownDress = t := dressed_self fun u hu => ownDress_id hs (ht.within hu)
  rw [← updateAt_dressed (g := fun _ => { t with fields := fs, status }) hnodup, hself, updateAt_of_eq rfl]
  intro u hu hid
  obtain rfl := (ht.within hu).eq_of_id hs ht hid
  rw [hself]

/-- Other fields of a type do not matter for what it inherits. -/
theorem Dressed.inherited?_eq (hs : s.Sound) (hindex : s.IndexedByHandle) {s' : Store} (ht : s.Holds t)
    (hd : s.Dressed (Function.update s.ownDress t.id (fs, t.status)) s') :
    s'.Holds { t with fields := fs } ∧ s'.inherited? { t with fields := fs } = s.inherited? t := by
  rw [← dressed_update_ownDress hs.handles ht]
  refine ⟨hd.holds ht, funext fun k => ?_⟩
  rw [inherited?, inherited?, hd.lineage hs hindex, List.flatMap_map]
  refine congrArg (List.find? _) (List.flatMap_congr fun b hb => ?_)
  obtain ⟨hheld, hid⟩ := holds_of_mem_lineage hs hindex hb
  rw [dressed_fields, Function.update_of_ne hid, ownDress_id hs.handles hheld]

end Store

/-- A check of overrides comes to its end and leaves none that is not genuine, whatever the bases are. -/
theorem checkOverrides_leaves_genuine (hs : s.Sound) (hindex : s.IndexedByHandle)
    (hkeys : (t.fields.map Field.key).Nodup) :
    -- the bases are followed nearest first, in a search that comes to its end
    (∀ n, (s.lineage t).length ≤ n → s.ancestry t n = t :: s.lineage t) ∧
    OverridesSettled (s.inherited? t) t.fields (s.checkOverrides t).1 ∧
    (s.Holds t → ∀ rounds finder, wp (Pass.checkOverrides.run rounds finder t.id)
      (fun _ s' => ∃ fields, s'.Holds { t with fields } ∧
        s'.inherited? { t with fields } = s.inherited? t ∧
        OverridesSettled (s'.inherited? { t with fields }) t.fields fields)
      (fun _ _ => False) s) := by
  have hsettles := s.checkOverrides_settles hkeys
  refine ⟨fun n hn => Store.ancestry_eq_lineage hs hindex hn, hsettles, fun ht rounds finder => ?_⟩
  refine wp_noting (Store.get?_of_holds hs.handles ht) fun journal => ?_
  have hupdate : s.Dressed (Function.update s.ownDress t.id ((s.checkOverrides t).1, t.status))
      (s.update t.id fun _ => { t with fields := (s.checkOverrides t).1 }) := by
    refine (Store.dressed_ownDress hs.handles).update hs ht ?_
    rw [dressed_self fun u hu => Store.ownDress_id hs.handles (ht.within hu)]
  have hnoted : s.Dressed (Function.update s.ownDress t.id ((s.checkOverrides t).1, t.status))
      { s.update t.id fun _ => { t with fields := (s.checkOverrides t).1 } with journal } :=
    ⟨hupdate.roots, hupdate.byName, hupdate.byHandle, hupdate.nextHandle⟩
  obtain ⟨hholds, hsame⟩ := hnoted.inherited?_eq hs hindex ht
  exact ⟨_, hholds, hsame, hsame ▸ hsettles⟩

namespace Overridden

def element (name : String) (type : String) (defaultValue : String) : Field :=
  { name, tag := .element, types := [.ofNative ⟨Native.ns, type⟩], defaultValue }

def record (id : Handle) (name : String) (fields : List Field) (bases : List (String × Handle)) :
    SchemaType where
  id := id
  qname := ⟨"urn:t", name⟩
  tag := .complexType
  fields := fields
  extensions := bases.map fun b => { tag := .extension, type := { qname := ⟨"urn:t", b.1⟩, reference := b.2 } }

/-- Restates a field, has one that its bases do not have, one that is an attribute there, and one with
another default. -/
def derived : SchemaType :=
  record 1 "D" [element "x" "int" "", element "y" "int" "", element "z" "string" "",
    element "w" "string" "new"] [("B", 2)]

def near : SchemaType :=
  record 2 "B" [element "X" "int" "", { element "z" "string" "" with tag := .attr }]
    [("A", 3), ("D", 1)]

def far : SchemaType :=
  record 3 "A" [element "x" "string" "", element "w" "string" "old"] [("B", 2)]

/-- Three types that are bases of each other in two circles. -/
def circle : Store :=
  ([derived, near, far].map Operation.enter ++ [Operation.extend (List.range 3)]).foldl Operation.run
    { nextHandle := 4 }

theorem checkOverrides_leaves_genuine_circle :
    circle.Sound ∧ circle.IndexedByHandle ∧ (derived.fields.map Field.key).Nodup ∧
    circle.Holds derived ∧ (circle.lineage derived).map (·.name) = ["B", "A"] ∧
    circle.ancestry derived 2 = derived :: circle.lineage derived ∧
    (circle.checkOverrides derived).1.map (·.name) = ["y", "z_Element", "w"] ∧
    OverridesSettled (circle.inherited? derived) derived.fields (circle.checkOverrides derived).1 ∧
    wp (Pass.checkOverrides.run 0 .plain derived.id) (fun _ s' => ∃ fields,
      s'.Holds { derived with fields } ∧
        OverridesSettled (s'.inherited? { derived with fields }) derived.fields fields)
      (fun _ _ => False) circle := by
  have hcircle : circle.Consistent := (Store.Consistent.empty {} 3).runAll (by decide +kernel)
  have hs : circle.Sound := hcircle.sound (by decide +kernel) (by decide +kernel)
  have hkeys : (derived.fields.map Field.key).Nodup := by decide +kernel
  have hholds : circle.Holds derived := Store.holds_of_mem_types List.mem_cons_self
  obtain ⟨hancestry, hsettled, hrun⟩ := checkOverrides_leaves_genuine hs hcircle.byHandle hkeys
  refine ⟨hs, hcircle.byHandle, hkeys, hholds, by decide +kernel, hancestry 2 (by decide +kernel),
    by decide +kernel, hsettled, wp_mono (hrun hholds 0 .plain) ?_ fun _ _ hfalse => hfalse⟩
  rintro _ s' ⟨fields, hheld, -, hend⟩
  exact ⟨fields, hheld, hend⟩

end Overridden

end Schemata
