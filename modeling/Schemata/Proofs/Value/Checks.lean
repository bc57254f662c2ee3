import Schemata.Proofs.Value.Defaults
import Schemata.Proofs.Value.Verdicts

/-!
# A step that checks defaults

A step with no other pass than the check of defaults gives every type that it has not begun the fields
that the verdicts on its defaults say, and warns of what they warn of. The verdicts are those on the
types that are there when the step begins: whichever way a type is looked up, worked on or not, it
counts as the enumeration that it has been.
-/

namespace Schemata

open Compile SchemaType
open scoped List

variable {s₀ s₁ s s' s'' : Store} {busy done : Status} {d d' d'' d₁ : Dress} {u v : SchemaType}
  {f : Field} {fs : List Field} {ft : FieldType} {ds ds' : List Diagnostic} {active : Option Handle}
  {n rounds : Nat} {process : Handle → Compile Unit}

namespace Store

/-- What the check makes of the fields of a type and their choices, and the warnings. -/
def verdicts (s : Store) (u : SchemaType) : List (Field × List Diagnostic) :=
  u.fields.map (·.judgeWhole (s.source? u) u)

def judgedFields (s : Store) (u : SchemaType) : List Field :=
  (s.verdicts u).map (·.1)

def complaints (s : Store) (u : SchemaType) : List Diagnostic :=
  (s.verdicts u).flatMap (·.2)

theorem sameMember_judgedFields (s : Store) (u : SchemaType) :
    List.Forall₂ Field.SameMember u.fields (s.judgedFields u) := by
  rw [judgedFields, verdicts, List.map_map, List.forall₂_map_right_iff]
  exact List.forall₂_same.mpr fun f _ => f.sameMember_judgeWhole ..

/-- What types are dressed in when the defaults of those that are not begun are checked. -/
def judgedDress (s : Store) (busy done : Status) : Dress := fun h =>
  match (walkAll s.types).find? (·.id == h) with
  | some u => if u.status < busy then (s.judgedFields u, done) else (u.fields, u.status)
  | none => ([], done)

theorem judgedDress_id (hs : s.handles.Nodup) (hu : s.Holds u) :
    s.judgedDress busy done u.id =
      if u.status < busy then (s.judgedFields u, done) else (u.fields, u.status) := by
  rw [← map_id_walkAll] at hs
  rw [judgedDress, (Lists.find?_key_eq_some_iff hs).mpr ⟨holds_iff_mem_walkAll.mp hu, rfl⟩]

/-- The warnings of the types that are not begun and that a dress has as done. -/
def told (s : Store) (busy done : Status) (d : Dress) : List Diagnostic :=
  (walkAll s.types).flatMap fun u =>
    if u.status < busy ∧ (d u.id).2 = done then s.complaints u else []

/-- The cause that something is missing that a type refers to as nested in it. -/
def Strays (s : Store) (c : Cause) : Prop :=
  ∃ u, s.Holds u ∧ ∃ ft ∈ u.fieldTypes, ft.forward = true ∧ u.nested? ft.qname = none ∧
    c = (innerNotFound u ft.qname).cause

-- ---------------------------------------------------------------------------
-- The warnings of types
-- ---------------------------------------------------------------------------

theorem told_congr (h : ∀ u, s.Holds u → ((d' u.id).2 = done ↔ (d u.id).2 = done)) :
    s.told busy done d' = s.told busy done d := by
  refine List.flatMap_congr fun u hu => ?_
  simp only [h u (holds_iff_mem_walkAll.mpr hu)]

/-- What is told when no type that is not begun is done. -/
theorem told_ownDress (hs : s.handles.Nodup) (hlt : busy < done) : s.told busy done s.ownDress = [] := by
  refine List.flatMap_eq_nil_iff.mpr fun u hu => if_neg ?_
  rintro ⟨hpending, hdone⟩
  rw [ownDress_id hs (holds_iff_mem_walkAll.mpr hu)] at hdone
  exact Nat.lt_asymm hlt (hdone ▸ hpending)

/-- What is told when every type that is not begun is done. -/
theorem told_judgedDress (hs : s.handles.Nodup) :
    s.told busy done (s.judgedDress busy done) =
      ((walkAll s.types).filter (·.status < busy)).flatMap s.complaints := by
  rw [Lists.flatMap_filter, told]
  refine List.flatMap_congr fun u hu => ?_
  rw [judgedDress_id hs (holds_iff_mem_walkAll.mpr hu)]
  by_cases hpending : u.status < busy
  · simp [hpending]
  · simp [hpending]

/-- One more type is done. -/
theorem told_update (hs : s.handles.Nodup) (hu : s.Holds u) (hpending : u.status < busy)
    (hnot : (d u.id).2 ≠ done) :
    (s.told busy done (Function.update d u.id (fs, done))).Perm (s.told busy done d ++ s.complaints u) := by
  rw [← map_id_walkAll] at hs
  obtain ⟨before, after, hwalk⟩ := List.append_of_mem (holds_iff_mem_walkAll.mp hu)
  rw [hwalk, List.map_append, List.map_cons, List.nodup_append, List.nodup_cons] at hs
  obtain ⟨-, ⟨hafter, -⟩, hbefore⟩ := hs
  have hothers : ∀ vs : List SchemaType, (∀ v ∈ vs, v.id ≠ u.id) →
      vs.flatMap (fun v => if v.status < busy ∧ (Function.update d u.id (fs, done) v.id).2 = done then
        s.complaints v else []) =
      vs.flatMap fun v => if v.status < busy ∧ (d v.id).2 = done then s.complaints v else [] := by
    intro vs hne
    refine List.flatMap_congr fun v hv => ?_
    rw [Function.update_of_ne (hne v hv)]
  rw [told, told, hwalk, List.flatMap_append, List.flatMap_append, List.flatMap_cons, List.flatMap_cons,
    hothers before fun v hv => hbefore _ (List.mem_map_of_mem hv) _ List.mem_cons_self,
    hothers after fun v hv heq => hafter (heq ▸ List.mem_map_of_mem hv), Function.update_self,
    if_pos ⟨hpending, rfl⟩, if_neg fun h => hnot h.2, List.nil_append, List.append_assoc]
  exact List.Perm.append_left _ List.perm_append_comm

/-- Between two stores that are dressed like this, what has been noted is what is told of types that are
done since, and `ds`. -/
def Tells (s₀ : Store) (busy done : Status) (d : Dress) (s : Store) (d' : Dress) (s' : Store)
    (ds : List Diagnostic) : Prop :=
  ∃ notes, noted s'.journal = noted s.journal ++ notes ∧
    (s₀.told busy done d ++ notes).Perm (s₀.told busy done d' ++ ds)

namespace Tells

theorem refl (s₀ : Store) (busy done : Status) (d : Dress) (s : Store) :
    s₀.Tells busy done d s d s [] :=
  ⟨[], (List.append_nil _).symm, .refl _⟩

theorem trans (h : s₀.Tells busy done d s d' s' ds) (h' : s₀.Tells busy done d' s' d'' s'' ds') :
    s₀.Tells busy done d s d'' s'' (ds ++ ds') := by
  obtain ⟨notes, hnoted, hperm⟩ := h
  obtain ⟨notes', hnoted', hperm'⟩ := h'
  refine ⟨notes ++ notes', by rw [hnoted', hnoted, List.append_assoc], ?_⟩
  have hcomm : ∀ xs ys zs : List Diagnostic, xs ++ ys ++ zs ~ xs ++ zs ++ ys := by
    intro xs ys zs
    rw [List.append_assoc, List.append_assoc]
    exact List.perm_append_comm.append_left xs
  calc s₀.told busy done d ++ (notes ++ notes')
    _ = s₀.told busy done d ++ notes ++ notes' := (List.append_assoc ..).symm
    _ ~ s₀.told busy done d' ++ ds ++ notes' := hperm.append_right notes'
    _ ~ s₀.told busy done d' ++ notes' ++ ds := hcomm ..
    _ ~ s₀.told busy done d'' ++ ds' ++ ds := hperm'.append_right ds
    _ ~ s₀.told busy done d'' ++ ds ++ ds' := hcomm ..
    _ = s₀.told busy done d'' ++ (ds ++ ds') := List.append_assoc ..

end Tells

-- ---------------------------------------------------------------------------
-- How far the step has come
-- ---------------------------------------------------------------------------

/-- What a type may be dressed in: what it has from the start, what it has while the step is at it, and
what it has when that is done. -/
inductive Standing (s₀ : Store) (busy done : Status) (u : SchemaType) : List Field × Status → Prop
  | kept : Standing s₀ busy done u (u.fields, u.status)
  | busy {fs : List Field} (hpending : u.status < busy)
      (hfs : List.Forall₂ Field.SameMember u.fields fs) : Standing s₀ busy done u (fs, busy)
  | done (hpending : u.status < busy) : Standing s₀ busy done u (s₀.judgedFields u, done)

namespace Standing

variable {dress : List Field × Status}

/-- Wherever it stands, a type counts as the same enumeration. -/
theorem sameMember (h : s₀.Standing busy done u dress) : List.Forall₂ Field.SameMember u.fields dress.1 := by
  cases h with
  | kept => exact List.forall₂_same.mpr fun f _ => .refl f
  | busy _ hfs => exact hfs
  | done => exact s₀.sameMember_judgedFields u

theorem eq_of_pending (hlt : busy < done) (h : s₀.Standing busy done u dress) (hpending : dress.2 < busy) :
    dress = (u.fields, u.status) := by
  cases h with
  | kept => rfl
  | busy => exact absurd hpending (Nat.lt_irrefl _)
  | done => exact absurd hpending (Nat.lt_asymm hlt)

end Standing

/-- What the step has made of a store on its way. -/
structure Judging (s₀ : Store) (busy done : Status) (d : Dress) (s : Store) : Prop where
  dressed : s₀.Dressed d s
  standing : ∀ u, s₀.Holds u → s₀.Standing busy done u (d u.id)
  begun : ∀ u, s₀.Holds u → ¬ (d u.id).2 < busy → ∀ v, Within v u → ¬ (d v.id).2 < busy

/-- What becomes of dresses: no type that is begun changes but the one that is worked on, and no other
is left at work. -/
structure Onward (s₀ : Store) (busy : Status) (active : Option Handle) (d d' : Dress) : Prop where
  kept : ∀ u, s₀.Holds u → some u.id ≠ active → ¬ (d u.id).2 < busy → d' u.id = d u.id
  idle : ∀ u, s₀.Holds u → some u.id ≠ active → (d' u.id).2 = busy → (d u.id).2 = busy

namespace Onward

theorem refl (s₀ : Store) (busy : Status) (active : Option Handle) (d : Dress) :
    s₀.Onward busy active d d :=
  ⟨fun _ _ _ _ => rfl, fun _ _ _ => id⟩

theorem trans (h : s₀.Onward busy active d d') (h' : s₀.Onward busy active d' d'') :
    s₀.Onward busy active d d'' where
  kept u hu hne hbegun := by
    have hsame := h.kept u hu hne hbegun
    exact (h'.kept u hu hne (hsame ▸ hbegun)).trans hsame
  idle u hu hne hbusy := h.idle u hu hne (h'.idle u hu hne hbusy)

theorem of_none (h : s₀.Onward busy none d d') (active : Option Handle) : s₀.Onward busy active d d' :=
  ⟨fun u hu _ => h.kept u hu (Option.some_ne_none _), fun u hu _ => h.idle u hu (Option.some_ne_none _)⟩

/-- A change of what the type is dressed in that is worked on. -/
theorem update (s₀ : Store) (busy : Status) (d : Dress) (h : Handle) (dress : List Field × Status) :
    s₀.Onward busy (some h) d (Function.update d h dress) where
  kept u _ hne _ := Function.update_of_ne (fun heq => hne (congrArg some heq)) ..
  idle u _ hne hbusy := by
    rwa [Function.update_of_ne fun heq => hne (congrArg some heq)] at hbusy

end Onward

/-- What a part of the step makes of a store. -/
structure Proceeded (s₀ : Store) (busy done : Status) (s s' : Store) : Prop where
  grows : s.Grows busy s'
  dresses : ∀ d, s₀.Dressed d s → ∃ d', s₀.Dressed d' s' ∧ s₀.Onward busy none d d' ∧
    s₀.Tells busy done d s d' s' []

namespace Proceeded

/-- What is recorded besides diagnostics is of no consequence. -/
theorem quiet (s₀ : Store) (busy done : Status) (s : Store) (memory : Memory) {journal : List Event}
    (hnoted : noted journal = noted s.journal) :
    s₀.Proceeded busy done s { s with memory, journal } where
  grows := ⟨rfl, fun u hu => ⟨u, hu, rfl, List.Subset.refl _⟩⟩
  dresses d hd := by
    refine ⟨d, ⟨hd.roots, hd.byName, hd.byHandle, hd.nextHandle⟩, .refl .., [], ?_, .refl _⟩
    rw [List.append_nil]
    exact hnoted

theorem trans (h : s₀.Proceeded busy done s s') (h' : s₀.Proceeded busy done s' s'') :
    s₀.Proceeded busy done s s'' where
  grows := h.grows.trans h'.grows
  dresses d hd := by
    obtain ⟨d', hd', honward, htells⟩ := h.dresses d hd
    obtain ⟨d'', hd'', honward', htells'⟩ := h'.dresses d' hd'
    exact ⟨d'', hd'', honward.trans honward', htells.trans htells'⟩

end Proceeded

/-- A store tells what its types are dressed in. -/
theorem Dressed.unique (hs₀ : s₀.Sound) (hd : s₀.Dressed d s) (hd' : s₀.Dressed d' s) (hu : s₀.Holds u) :
    d' u.id = d u.id := by
  have heq := (hd'.holds hu).eq_of_id (hd.sound hs₀).handles (hd.holds hu) (by simp)
  exact Prod.ext (by simpa using congrArg SchemaType.fields heq) (by simpa using congrArg SchemaType.status heq)

namespace Judging

theorem sound (hs₀ : s₀.Sound) (hs : s₀.Judging busy done d s) : s.Sound :=
  hs.dressed.sound hs₀

theorem closed (hs : s₀.Judging busy done d s) : s.Closed busy :=
  hs.dressed.closed hs.begun

theorem redress (hs₀ : s₀.Sound) (hs : s₀.Judging busy done d s) (hd : s₀.Dressed d' s) :
    s₀.Judging busy done d' s where
  dressed := hd
  standing u hu := by
    rw [hs.dressed.unique hs₀ hd hu]
    exact hs.standing u hu
  begun u hu hbegun v hv := by
    rw [hs.dressed.unique hs₀ hd hu] at hbegun
    rw [hs.dressed.unique hs₀ hd (hu.within hv)]
    exact hs.begun u hu hbegun v hv

theorem start (hs₀ : s₀.Sound) (hclosed : s₀.Closed busy) : s₀.Judging busy done s₀.ownDress s₀ where
  dressed := dressed_ownDress hs₀.handles
  standing u hu := by
    rw [ownDress_id hs₀.handles hu]
    exact .kept
  begun u hu hbegun v hv := by
    rw [ownDress_id hs₀.handles hu] at hbegun
    rw [ownDress_id hs₀.handles (hu.within hv)]
    exact pending_eq_nil_iff.mp (hclosed u hu hbegun) v hv

/-- A change of a type whose inner types are begun, which leaves it begun. -/
theorem update (hs₀ : s₀.Sound) (hs : s₀.Judging busy done d s) (hu : s₀.Holds u)
    (hinner : ∀ c ∈ u.inner, ∀ v, Within v c → ¬ (d v.id).2 < busy) {g : SchemaType → SchemaType}
    {status : Status} (hg : g (u.dressed d) = { u.dressed d with fields := fs, status })
    (hstanding : s₀.Standing busy done u (fs, status)) (hstatus : ¬ status < busy) :
    s₀.Judging busy done (Function.update d u.id (fs, status)) (s.update u.id g) where
  dressed := hs.dressed.update hs₀ hu hg
  standing v hv := by
    by_cases hid : v.id = u.id
    · rwa [hv.eq_of_id hs₀.handles hu hid, Function.update_self]
    · rw [Function.update_of_ne hid]
      exact hs.standing v hv
  begun v hv hlt w hw := begun_update hs₀ hu hs.begun hinner hstatus hv hlt hw

end Judging

end Store

/-- The discipline of the step. -/
def judging (hs₀ : s₀.Sound) (busy done : Status) : Discipline where
  busy := busy
  Inv s := ∃ d, s₀.Judging busy done d s
  Leads := s₀.Proceeded busy done
  Allowed := s₀.Strays
  Silent journal journal' := noted journal' = noted journal
  sound := fun ⟨_, hs⟩ => hs.sound hs₀
  closed := fun ⟨_, hs⟩ => hs.closed
  refl s := .quiet s₀ busy done s s.memory rfl
  trans := .trans
  grows := Store.Proceeded.grows
  silent := id
  quiet {s} memory _ hnoted := fun ⟨d, hs⟩ =>
    ⟨⟨d, ⟨hs.dressed.roots, hs.dressed.byName, hs.dressed.byHandle, hs.dressed.nextHandle⟩, hs.standing,
      hs.begun⟩, .quiet s₀ busy done s memory hnoted⟩

-- ---------------------------------------------------------------------------
-- One type
-- ---------------------------------------------------------------------------

/-- The step has begun a type and not been at it yet. -/
structure Store.CheckBegun (s₀ : Store) (busy done : Status) (u : SchemaType) (d₁ : Dress) (s₁ : Store) :
    Prop where
  sound : s₀.Sound
  lt : busy < done
  held : s₀.Holds u
  pending : u.status < busy
  judging : s₀.Judging busy done d₁ s₁
  here : d₁ u.id = (u.fields, busy)

/-- The step is at the type, which has come to have some fields, and has warned of it. -/
def Store.Checking (s₀ : Store) (busy done : Status) (u : SchemaType) (d₁ : Dress) (s₁ : Store)
    (fs : List Field) (ds : List Diagnostic) (s : Store) : Prop :=
  ∃ d, s₀.Judging busy done d s ∧ d u.id = (fs, busy) ∧ s₀.Onward busy (some u.id) d₁ d ∧
    s₀.Tells busy done d₁ s₁ d s ds

namespace Store.Checking

variable {α : Type} {position : FieldPosition} {put : Field → List Field} {E : Failure → Store → Prop}

theorem start (hb : s₀.CheckBegun busy done u d₁ s₁) : s₀.Checking busy done u d₁ s₁ u.fields [] s₁ :=
  ⟨d₁, hb.judging, hb.here, .refl .., .refl ..⟩

theorem wp_typeOf {Q : SchemaType → Store → Prop} (hb : s₀.CheckBegun busy done u d₁ s₁)
    (hw : s₀.Checking busy done u d₁ s₁ fs ds s)
    (hQ : ∀ t, t.qname = u.qname → t.fields = fs → Q t s) : wp (typeOf u.id) Q E s := by
  obtain ⟨d, hs, hd, -⟩ := hw
  have hget := get?_of_holds (hs.sound hb.sound).handles (hs.dressed.holds hb.held)
  rw [dressed_id] at hget
  exact (Compile.wp_typeOf hget).mpr (hQ _ (dressed_qname d u) (by rw [dressed_fields, hd]))

theorem wp_fieldOf {Q : Field → Store → Prop} {i : Nat} (hb : s₀.CheckBegun busy done u d₁ s₁)
    (hw : s₀.Checking busy done u d₁ s₁ fs ds s) (hQ : Q (fs[i]?.getD {}) s) :
    wp (fieldOf u.id i) Q E s := by
  unfold fieldOf
  refine wp_bind.mpr (hw.wp_typeOf hb fun t _ ht => ?_)
  rw [ht]
  exact wp_pure.mpr hQ

theorem wp_fieldAt {Q : Field → Store → Prop} (hb : s₀.CheckBegun busy done u d₁ s₁)
    (hw : s₀.Checking busy done u d₁ s₁ fs ds s) (hQ : Q (position.read fs) s) :
    wp (fieldAt u.id position) Q E s := by
  unfold fieldAt
  refine wp_bind.mpr (hw.wp_fieldOf hb ?_)
  unfold FieldPosition.read at hQ
  cases hchoice : position.choice with
  | none =>
    rw [hchoice] at hQ
    exact wp_pure.mpr hQ
  | some j =>
    rw [hchoice] at hQ
    exact wp_pure.mpr hQ

theorem wp_updateFieldAt {Q : Unit → Store → Prop} {change : Field → Field}
    (hb : s₀.CheckBegun busy done u d₁ s₁) (hfocus : position.Focuses put)
    (hw : s₀.Checking busy done u d₁ s₁ (put f) ds s)
    (hmembers : List.Forall₂ Field.SameMember u.fields (put (change f)))
    (hQ : ∀ s', s₀.Checking busy done u d₁ s₁ (put (change f)) ds s' → Q () s') :
    wp (updateFieldAt u.id position change) Q E s := by
  obtain ⟨d, hs, hd, honward, notes, hnoted, hperm⟩ := hw
  have hbusy : ¬ (d u.id).2 < busy := by
    rw [hd]
    exact Nat.lt_irrefl _
  have hchange : { u.dressed d with fields := position.edit change (u.dressed d).fields } =
      { u.dressed d with fields := put (change f), status := busy } := by
    have hstatus : (u.dressed d).status = busy := by rw [dressed_status, hd]
    rw [dressed_fields, hd, hfocus.edit, ← hstatus]
  have hs' := hs.update hb.sound hb.held (fun c hc v hv => hs.begun u hb.held hbusy v (.inner hc hv))
    (g := fun t => { t with fields := position.edit change t.fields }) hchange
    (.busy hb.pending hmembers) (Nat.lt_irrefl _)
  have htold : s₀.told busy done (Function.update d u.id (put (change f), busy)) = s₀.told busy done d := by
    refine told_congr fun v _ => ?_
    rw [Function.update_apply]
    split
    case isTrue hid => rw [hid, hd]
    case isFalse => rfl
  refine wp_update.mpr (hQ _ ⟨_, hs', Function.update_self .., honward.trans (.update ..), notes, hnoted, ?_⟩)
  rwa [htold]

theorem wp_warn {Q : Unit → Store → Prop} {code type field message : String}
    (hw : s₀.Checking busy done u d₁ s₁ fs ds s)
    (hQ : ∀ s', s₀.Checking busy done u d₁ s₁ fs
      (ds ++ [{ severity := .warning, code, message, type, field }]) s' → Q () s') :
    wp (Compile.warn code type field message) Q E s := by
  obtain ⟨d, hs, hd, honward, notes, hnoted, hperm⟩ := hw
  refine wp_modify.mpr (hQ _ ⟨d, ⟨⟨hs.dressed.roots, hs.dressed.byName, hs.dressed.byHandle,
    hs.dressed.nextHandle⟩, hs.standing, hs.begun⟩, hd, honward,
    notes ++ [{ severity := .warning, code, message, type, field }], ?_, ?_⟩)
  · rw [← List.append_assoc, ← hnoted]
    exact List.filterMap_append
  · rw [← List.append_assoc, ← List.append_assoc]
    exact hperm.append_right _

/-- The work goes on after another part of the step. -/
theorem proceed (hb : s₀.CheckBegun busy done u d₁ s₁) (hw : s₀.Checking busy done u d₁ s₁ fs ds s)
    (hinv : (judging hb.sound busy done).Inv s') (hp : s₀.Proceeded busy done s s') :
    s₀.Checking busy done u d₁ s₁ fs ds s' := by
  obtain ⟨d, hs, hd, honward, htells⟩ := hw
  obtain ⟨d', hd', honward', htells'⟩ := hp.dresses d hs.dressed
  obtain ⟨_, hs'⟩ := hinv
  have hkept := honward'.kept u hb.held (Option.some_ne_none _) (by rw [hd]; exact Nat.lt_irrefl _)
  refine ⟨d', hs'.redress hb.sound hd', hkept.trans hd, honward.trans (honward'.of_none _), ?_⟩
  simpa using htells.trans htells'

theorem handles (hb : s₀.CheckBegun busy done u d₁ s₁) (hw : s₀.Checking busy done u d₁ s₁ fs ds s) :
    s.handles = s₁.handles := by
  obtain ⟨d, hs, -⟩ := hw
  rw [hs.dressed.handles, hb.judging.dressed.handles]

theorem inv (hb : s₀.CheckBegun busy done u d₁ s₁) (hw : s₀.Checking busy done u d₁ s₁ fs ds s) :
    (judging hb.sound busy done).Inv s := by
  obtain ⟨d, hs, -⟩ := hw
  exact ⟨d, hs⟩

theorem grows (hb : s₀.CheckBegun busy done u d₁ s₁) (hw : s₀.Checking busy done u d₁ s₁ fs ds s) :
    s₁.Grows busy s := by
  obtain ⟨d, hs, hd, honward, -⟩ := hw
  refine hb.judging.dressed.grows hs.dressed fun v hv hbegun => ?_
  by_cases hid : v.id = u.id
  · rw [hid, hd]
    exact Nat.lt_irrefl _
  · rwa [honward.kept v hv (fun heq => hid (Option.some.inj heq)) hbegun]

/-- Whatever is looked up counts as the enumeration that it has been at the start. -/
theorem wp_enumeration {Q : SchemaType → Store → Prop} (hb : s₀.CheckBegun busy done u d₁ s₁)
    (hw : s₀.Checking busy done u d₁ s₁ fs ds s) (hv : s₀.Holds v)
    (hQ : ∀ t, t.qname = v.qname → t.id = v.id → List.Forall₂ Field.SameMember v.fields t.fields → Q t s) :
    wp (typeOf v.id) Q E s := by
  obtain ⟨d, hs, -⟩ := hw
  have hget := get?_of_holds (hs.sound hb.sound).handles (hs.dressed.holds hv)
  rw [dressed_id] at hget
  refine (Compile.wp_typeOf hget).mpr (hQ _ (dressed_qname d v) (dressed_id d v) ?_)
  rw [dressed_fields]
  exact (hs.standing v hv).sameMember

/-- What is to be nested in the type is found there, with its handle, or the step fails. -/
theorem wp_findInner {Q : Option Handle → Store → Prop} (hb : s₀.CheckBegun busy done u d₁ s₁)
    (hft : ft ∈ u.fieldTypes) (hforward : ft.forward = true) (hw : s₀.Checking busy done u d₁ s₁ fs ds s)
    (hQ : Q ((u.nested? ft.qname).map (·.id)) s) :
    wp (some <$> (Finder.processing busy (rounds + 2) process).findInner u.id ft.qname) Q
      ((judging hb.sound busy done).Fails s₁) s := by
  have hhandles := hw.handles hb
  obtain ⟨d, hs, hd, -⟩ := hw
  have hget := get?_of_holds (hs.sound hb.sound).handles (hs.dressed.holds hb.held)
  rw [dressed_id] at hget
  simp only [map_eq_pure_bind, Finder.processing, findNested, bind_assoc]
  rw [wp_bind, Compile.wp_typeOf hget, nested?_dressed]
  cases hnested : u.nested? ft.qname with
  | none =>
    dsimp only [Option.map_none]
    rw [wp_bind, wp_throw]
    refine ⟨⟨u, hb.held, ft, hft, hforward, hnested, ?_⟩, hhandles ▸ List.Subset.refl _⟩
    rw [innerNotFound, innerNotFound, dressed_qname]
  | some v =>
    obtain ⟨c, hc, hin⟩ := mem_walkAll_iff.mp (List.mem_of_find?_eq_some hnested)
    have hbegun : ¬ (v.dressed d).status < busy := by
      rw [dressed_status]
      refine hs.begun u hb.held ?_ v (.inner hc hin)
      rw [hd]
      exact Nat.lt_irrefl _
    rw [hnested] at hQ
    simp only [Option.map_some, pure_bind, if_neg hbegun, dressed_id]
    exact wp_pure.mpr hQ

/-- A look-up finds what it would have found at the start, though it may work on that first. -/
theorem wp_find {Q : Option Handle → Store → Prop} (hb : s₀.CheckBegun busy done u d₁ s₁)
    (hprocess : (judging hb.sound busy done).Processes n process) (hn : (s₁.pending busy).length < n)
    (hw : s₀.Checking busy done u d₁ s₁ fs ds s)
    (hQ : ∀ s', s₀.Checking busy done u d₁ s₁ fs ds s' →
      Q ((s₀.lookup? ft.qname fun t => ft.reference == 0 || t.id == ft.reference).map (·.id)) s') :
    wp ((Finder.processing busy (rounds + 2) process).find ft.qname
        fun t => ft.reference == 0 || t.id == ft.reference) Q
      ((judging hb.sound busy done).Fails s₁) s := by
  have hhandles := hw.handles hb
  have hw₀ := hw
  obtain ⟨d, hs, -⟩ := hw
  have hle := (hw₀.grows hb).length_pending_le (hs.sound hb.sound).handles
  refine wp_mono (hprocess.lookup (hw₀.inv hb) (Nat.lt_of_le_of_lt hle hn) (fun _ => rfl) ft.qname rounds)
    ?_ fun e s' hfails => ⟨hfails.1, hhandles ▸ hfails.2⟩
  rintro r s' ⟨⟨d', hs'⟩, hp, hr⟩
  have hw' := hw₀.proceed hb ⟨d', hs'⟩ hp
  rw [hs'.dressed.lookup? hb.sound ft.qname fun t => by rw [dressed_id]] at hr
  have hresult : r = (s₀.lookup? ft.qname fun t => ft.reference == 0 || t.id == ft.reference).map (·.id) := by
    generalize hfound : (s₀.lookup? ft.qname _).map (dressed d') = found at hr
    cases hr with
    | none => rw [Option.map_eq_none_iff.mp hfound, Option.map_none]
    | some =>
      obtain ⟨v, hv, rfl⟩ := Option.map_eq_some_iff.mp hfound
      rw [hv, Option.map_some, dressed_id]
  exact hresult ▸ hQ s' hw'

/-- What a type refers to is looked up, unless it is to be nested in it and is not there. -/
theorem wp_source {Q : Option Handle → Store → Prop} (hb : s₀.CheckBegun busy done u d₁ s₁)
    (hprocess : (judging hb.sound busy done).Processes n process) (hn : (s₁.pending busy).length < n)
    (hft : ft ∈ u.fieldTypes) (hw : s₀.Checking busy done u d₁ s₁ fs ds s)
    (hQ : ∀ s', s₀.Checking busy done u d₁ s₁ fs ds s' → Q ((s₀.source? u ft).map (·.id)) s') :
    wp (if ft.forward then
        some <$> (Finder.processing busy (rounds + 2) process).findInner u.id ft.qname
      else (Finder.processing busy (rounds + 2) process).find ft.qname
        fun t => ft.reference == 0 || t.id == ft.reference) Q
      ((judging hb.sound busy done).Fails s₁) s := by
  unfold source? at hQ
  split
  case isTrue hforward =>
    rw [if_pos hforward] at hQ
    exact hw.wp_findInner hb hft hforward (hQ s hw)
  case isFalse hforward =>
    rw [if_neg hforward] at hQ
    exact hw.wp_find hb hprocess hn hQ

/-- A search for the default of a field has come to a result, which the field is bound to. -/
def Searched (s₀ : Store) (busy done : Status) (u : SchemaType) (d₁ : Dress) (s₁ : Store)
    (put : Field → List Field) (f : Field) (ds : List Diagnostic) (result : EnumMatch × Option EnumValue)
    (r : EnumMatch) (s : Store) : Prop :=
  r = result.1 ∧ s₀.Checking busy done u d₁ s₁ (put { f with defaultEnum := result.2 }) ds s

/-- The search for a default comes to what the enumerations at the start say. -/
theorem wp_matchEnum (rounds : Nat) (hb : s₀.CheckBegun busy done u d₁ s₁)
    (hprocess : (judging hb.sound busy done).Processes n process) (hn : (s₁.pending busy).length < n)
    (hfocus : position.Focuses put) (hmember : f.isEnumeration = false)
    (hput : ∀ g, f.SameMember g → List.Forall₂ Field.SameMember u.fields (put g))
    (hw : s₀.Checking busy done u d₁ s₁ (put f) ds s) (hdeclares : ∀ ft ∈ f.types, ft ∈ u.fieldTypes)
    (sofar : EnumMatch) (pre post : List FieldType) (htypes : f.types = pre ++ post) :
    wp (matchEnum (.processing busy (rounds + 2) process) u.id position sofar
        (List.range' pre.length post.length))
      (Searched s₀ busy done u d₁ s₁ put f ds
        (f.matchAmong sofar (post.filterMap (·.enumeration? (s₀.source? u)))))
      ((judging hb.sound busy done).Fails s₁) s := by
  induction post generalizing s sofar pre with
  | nil =>
    rw [List.filterMap_nil, Field.matchAmong]
    exact wp_pure.mpr ⟨rfl, by rwa [Field.withDefaultEnum_eq rfl]⟩
  | cons ft post ih =>
    have hft : ft ∈ f.types := htypes ▸ List.mem_append_right _ List.mem_cons_self
    have hget : f.types[pre.length]?.getD {} = ft := by simp [htypes]
    have hrest : ∀ {s'} sofar, s₀.Checking busy done u d₁ s₁ (put f) ds s' →
        wp (matchEnum (.processing busy (rounds + 2) process) u.id position sofar
            (List.range' (pre.length + 1) post.length))
          (Searched s₀ busy done u d₁ s₁ put f ds
            (f.matchAmong sofar (post.filterMap (·.enumeration? (s₀.source? u)))))
          ((judging hb.sound busy done).Fails s₁) s' := by
      intro s' sofar hw'
      have hend := ih hw' sofar (pre ++ [ft]) (by rw [htypes, List.append_assoc]; rfl)
      rwa [List.length_append] at hend
    rw [List.length_cons, List.range'_succ, matchEnum, wp_bind]
    refine hw.wp_fieldAt hb ?_
    rw [hfocus.read, hget]
    dsimp only
    split
    case isTrue hnative =>
      rw [List.filterMap_cons_none (by rw [FieldType.enumeration?, if_pos hnative])]
      exact hrest sofar hw
    case isFalse hnative =>
      rw [wp_ite_bind]
      refine hw.wp_source hb hprocess hn (hdeclares ft hft) fun s' hw' => ?_
      have henum? : ft.enumeration? (s₀.source? u) = (s₀.source? u ft).filter (·.isEnumeration) := by
        rw [FieldType.enumeration?, if_neg hnative]
      cases hv : s₀.source? u ft with
      | none =>
        rw [List.filterMap_cons_none (by rw [henum?, hv, Option.filter_none])]
        exact hrest sofar hw'
      | some v =>
        rw [Option.map_some]
        dsimp only
        refine wp_bind.mpr (hw'.wp_enumeration hb (source?_holds hb.sound hb.held hv)
          fun t hqname hid hmembers => ?_)
        refine wp_bind.mpr (hw'.wp_fieldAt hb ?_)
        rw [hfocus.read, isEnumeration_of_sameMembers hmembers]
        cases henum : v.isEnumeration with
        | false =>
          rw [List.filterMap_cons_none (by rw [henum?, hv, Option.filter_some, henum]; rfl)]
          exact hrest sofar hw'
        | true =>
          rw [List.filterMap_cons_some (by rw [henum?, hv, Option.filter_some, henum]; rfl),
            ← Field.matchAmong_congr hqname hid hmembers henum, Field.matchAmong, Bool.not_true,
            if_neg Bool.false_ne_true]
          split
          · split
            · exact wp_pure.mpr ⟨rfl, by rwa [Field.withDefaultEnum_eq rfl]⟩
            · exact hrest .noMember hw'
          · cases t.fields.find? (·.defaultValue == f.defaultValue) with
            | none => exact hrest .noMember hw'
            | some member =>
              refine wp_bind.mpr (hw'.wp_updateFieldAt hb hfocus (hput _ (.of_tag hmember rfl)) ?_)
              exact fun s'' hend => wp_pure.mpr ⟨rfl, hend⟩

/-- The check of a default comes to the verdict on it. -/
theorem wp_checkDefault (rounds : Nat) (hb : s₀.CheckBegun busy done u d₁ s₁)
    (hprocess : (judging hb.sound busy done).Processes n process) (hn : (s₁.pending busy).length < n)
    (hfocus : position.Focuses put)
    (hput : ∀ g, f.SameMember g → List.Forall₂ Field.SameMember u.fields (put g))
    (hw : s₀.Checking busy done u d₁ s₁ (put f) ds s) (hdeclares : ∀ ft ∈ f.types, ft ∈ u.fieldTypes) :
    wp (checkDefault (.processing busy (rounds + 2) process) u.id position)
      (fun _ s' => s₀.Checking busy done u d₁ s₁ (put (f.judge (s₀.source? u) u).1)
        (ds ++ (f.judge (s₀.source? u) u).2) s')
      ((judging hb.sound busy done).Fails s₁) s := by
  unfold checkDefault Field.judge Field.verdict
  refine wp_bind.mpr (hw.wp_fieldAt hb ?_)
  rw [hfocus.read]
  split
  case isTrue => exact wp_pure.mpr (by rwa [List.append_nil])
  case isFalse hmember =>
    rw [Bool.not_eq_true] at hmember
    refine wp_bind.mpr (hw.wp_updateFieldAt hb hfocus (hput _ (.of_tag hmember f.akin_alignDefault.tag))
      fun s' hw' => ?_)
    have htypes := f.types_alignDefault
    have htag := f.akin_alignDefault.tag
    have henums : f.alignDefault.enumerations (s₀.source? u) = f.enumerations (s₀.source? u) := by
      rw [Field.enumerations, Field.enumerations, htypes]
    rw [← henums]
    generalize f.alignDefault = f' at hw' htypes htag
    have hmember' : f'.isEnumeration = false := by rwa [Field.isEnumeration, htag]
    have hput' : ∀ g : Field, g.tag = f'.tag → List.Forall₂ Field.SameMember u.fields (put g) := fun g hg =>
      hput g (.of_tag hmember (hg.trans htag))
    refine wp_bind.mpr (hw'.wp_fieldAt hb ?_)
    rw [hfocus.read]
    dsimp only
    split
    case isTrue => exact wp_pure.mpr (by rwa [List.append_nil])
    case isFalse =>
      rw [wp_bind, List.range_eq_range']
      have hsearch := hw'.wp_matchEnum rounds hb hprocess hn hfocus hmember'
        (fun g hg => hput' g hg.tag) (fun ft hft => hdeclares ft (htypes ▸ hft)) .noEnumeration [] f'.types rfl
      refine wp_mono hsearch ?_ fun _ _ => id
      change ∀ r s'', Searched s₀ busy done u d₁ s₁ put f' ds
        (f'.matchAmong .noEnumeration (f'.enumerations (s₀.source? u))) r s'' → _
      rcases hmatch : f'.matchAmong .noEnumeration (f'.enumerations (s₀.source? u)) with ⟨result, value⟩
      rintro result s'' ⟨rfl, hw''⟩
      cases result with
      | found => exact wp_pure.mpr (by rwa [List.append_nil])
      | noMember =>
        rw [Field.withDefaultEnum_eq (Field.unbound_of_matchAmong hmatch (by decide))] at hw''
        refine wp_bind.mpr (hw''.wp_typeOf hb fun t hqname _ => ?_)
        refine wp_bind.mpr (hw''.wp_warn fun s₃ hw₃ => ?_)
        rw [hqname] at hw₃
        exact hw₃.wp_updateFieldAt hb hfocus (hput' _ rfl) fun s₄ => id
      | noEnumeration =>
        rw [Field.withDefaultEnum_eq (Field.unbound_of_matchAmong hmatch (by decide))] at hw''
        refine wp_bind.mpr (hw''.wp_fieldAt hb ?_)
        rw [hfocus.read]
        cases f'.acceptsDefault with
        | true => exact wp_pure.mpr (by rwa [if_pos rfl, List.append_nil])
        | false =>
          rw [Bool.not_false, if_pos rfl]
          refine wp_bind.mpr (hw''.wp_typeOf hb fun t hqname _ => ?_)
          refine wp_bind.mpr (hw''.wp_warn fun s₃ hw₃ => ?_)
          rw [hqname] at hw₃
          exact hw₃.wp_updateFieldAt hb hfocus (hput' _ rfl) fun s₄ => id

theorem wp_checkChoices (rounds : Nat) (hb : s₀.CheckBegun busy done u d₁ s₁)
    (hprocess : (judging hb.sound busy done).Processes n process) (hn : (s₁.pending busy).length < n)
    (before after cs cs' : List Field)
    (hput : ∀ choices, List.Forall₂ Field.SameMember u.fields (before ++ { f with choices } :: after))
    (hw : s₀.Checking busy done u d₁ s₁ (before ++ { f with choices := cs ++ cs' } :: after) ds s)
    (hdeclares : ∀ c ∈ cs', ∀ ft ∈ c.types, ft ∈ u.fieldTypes) :
    wp (checkChoices (.processing busy (rounds + 2) process) u.id before.length
        (List.range' cs.length cs'.length))
      (fun _ s' => s₀.Checking busy done u d₁ s₁
        (before ++ { f with
          choices := cs ++ cs'.map fun c => (c.judge (s₀.source? u) u).1 } :: after)
        (ds ++ cs'.flatMap fun c => (c.judge (s₀.source? u) u).2) s')
      ((judging hb.sound busy done).Fails s₁) s := by
  induction cs' generalizing s cs ds with
  | nil => exact wp_pure.mpr (by rwa [List.flatMap_nil, List.append_nil])
  | cons c cs' ih =>
    obtain ⟨hc, hcs⟩ := List.forall_mem_cons.mp hdeclares
    rw [List.length_cons, List.range'_succ, checkChoices, wp_bind]
    refine wp_mono (hw.wp_checkDefault rounds hb hprocess hn
      (FieldPosition.focuses_choice before after f cs cs') (fun c' _ => hput _) hc) (fun _ s' hw' => ?_)
      fun _ _ => id
    have hrest := ih (cs ++ [(c.judge (s₀.source? u) u).1])
      (by rwa [List.append_assoc]) hcs
    rw [List.length_append, List.length_singleton] at hrest
    simpa only [List.append_assoc, List.map_cons, List.flatMap_cons, List.singleton_append] using hrest

theorem wp_checkFields (rounds : Nat) (hb : s₀.CheckBegun busy done u d₁ s₁)
    (hprocess : (judging hb.sound busy done).Processes n process) (hn : (s₁.pending busy).length < n)
    (first before after : List Field) (hfields : u.fields = first ++ after)
    (hbefore : List.Forall₂ Field.SameMember first before)
    (hw : s₀.Checking busy done u d₁ s₁ (before ++ after) ds s) :
    wp (checkFields (.processing busy (rounds + 2) process) u.id (List.range' before.length after.length))
      (fun _ s' => s₀.Checking busy done u d₁ s₁ (before ++ after.map fun f => (f.judgeWhole (s₀.source? u) u).1)
        (ds ++ after.flatMap fun f => (f.judgeWhole (s₀.source? u) u).2) s')
      ((judging hb.sound busy done).Fails s₁) s := by
  induction after generalizing s first before ds with
  | nil => exact wp_pure.mpr (by rwa [List.flatMap_nil, List.append_nil])
  | cons f after ih =>
    have hrefers : ∀ ft, f.Refers ft → ft ∈ u.fieldTypes := fun ft hft =>
      mem_fieldTypes_iff.mpr (.inl ⟨f, hfields ▸ List.mem_append_right _ List.mem_cons_self, hft⟩)
    have hput : ∀ g, f.SameMember g → List.Forall₂ Field.SameMember u.fields (before ++ g :: after) := by
      intro g hg
      rw [hfields]
      exact List.rel_append hbefore (.cons hg (List.forall₂_same.mpr fun f _ => .refl f))
    have hchecked := f.checked_verdict (f.enumerations (s₀.source? u)) u
    have hsame := hchecked.sameMember
    have hchoices : (f.judge (s₀.source? u) u).1.choices = f.choices := hchecked.akin.choices
    rw [List.length_cons, List.range'_succ, checkFields, wp_bind]
    -- first the default of the field itself, then those of its choices
    refine wp_mono (hw.wp_checkDefault rounds hb hprocess hn (FieldPosition.focuses_field before after) hput
      fun ft hft => hrefers ft (.own hft)) (fun _ s' hw' => ?_) fun _ _ => id
    rw [← Field.withChoices_eq hchoices, ← List.nil_append f.choices] at hw'
    have hcount : ((before ++ { (f.judge (s₀.source? u) u).1 with choices := [] ++ f.choices } ::
        after)[before.length]?.getD {}).choices = f.choices := by simp
    rw [wp_bind]
    refine hw'.wp_fieldOf hb ?_
    rw [hcount, wp_bind, List.range_eq_range']
    refine wp_mono (hw'.wp_checkChoices rounds hb hprocess hn before after [] f.choices
      (fun choices => hput _ ⟨hsame.tag, hsame.member⟩)
      fun c hc ft hft => hrefers ft (.choice hc (.own hft))) (fun _ s'' hw'' => ?_) fun _ _ => id
    have hrest := ih (first ++ [f]) (before ++ [(f.judgeWhole (s₀.source? u) u).1])
      (by rw [hfields, List.append_assoc]; rfl)
      (List.rel_append hbefore (.cons (f.sameMember_judgeWhole ..) .nil))
      (by rw [List.append_assoc]; exact hw'')
    rw [List.length_append, List.length_singleton] at hrest
    simpa only [Field.judgeWhole, List.append_assoc, List.map_cons, List.flatMap_cons,
      List.singleton_append] using hrest

theorem wp_checkDefaults (rounds : Nat) (hb : s₀.CheckBegun busy done u d₁ s₁)
    (hprocess : (judging hb.sound busy done).Processes n process) (hn : (s₁.pending busy).length < n) :
    wp (checkDefaults (.processing busy (rounds + 2) process) u.id)
      (fun _ s' => s₀.Checking busy done u d₁ s₁ (s₀.judgedFields u) (s₀.complaints u) s')
      ((judging hb.sound busy done).Fails s₁) s₁ := by
  have hw := start hb
  unfold checkDefaults
  refine wp_bind.mpr (hw.wp_typeOf hb fun t _ ht => ?_)
  rw [ht, List.range_eq_range']
  have hcheck := hw.wp_checkFields rounds hb hprocess hn [] [] u.fields rfl .nil
  rw [judgedFields, complaints, verdicts, List.map_map, List.flatMap_map]
  exact hcheck

end Store.Checking

-- ---------------------------------------------------------------------------
-- The step
-- ---------------------------------------------------------------------------

/-- The step that has the check of defaults as its only pass. -/
def checkingStep (name : String) (busy done : Status) : Step :=
  { name, busy, done, passes := [.checkDefaults] }

theorem Store.Onward.finish (h : s₀.Onward busy (some u.id) d d') (hpending : (d u.id).2 < busy)
    (hdone : (d' u.id).2 ≠ busy) : s₀.Onward busy none d d' where
  kept v hv _ hbegun := by
    refine h.kept v hv (fun heq => hbegun ?_) hbegun
    rwa [Option.some.inj heq]
  idle v hv _ hbusy := by
    refine h.idle v hv (fun heq => hdone ?_) hbusy
    rwa [← Option.some.inj heq]

theorem Store.Proceeded.of_dressed (hs₀ : s₀.Sound) (hd : s₀.Dressed d s) (hd' : s₀.Dressed d' s')
    (honward : s₀.Onward busy none d d') (hbegun : ∀ u, s₀.Holds u → ¬ (d u.id).2 < busy → ¬ (d' u.id).2 < busy)
    (htells : s₀.Tells busy done d s d' s' []) : s₀.Proceeded busy done s s' where
  grows := hd.grows hd' hbegun
  dresses d₀ hd₀ := by
    have hsame := fun u hu => hd.unique (u := u) hs₀ hd₀ hu
    obtain ⟨notes, hnoted, hperm⟩ := htells
    refine ⟨d', hd', ⟨fun u hu hne hbegun => ?_, fun u hu hne hbusy => ?_⟩, notes, hnoted, ?_⟩
    · rw [hsame u hu] at hbegun ⊢
      exact honward.kept u hu hne hbegun
    · rw [hsame u hu]
      exact honward.idle u hu hne hbusy
    · rwa [told_congr fun u hu => by rw [hsame u hu]]

/-- A type is begun when what is nested in it is. -/
theorem Store.Judging.begins (hs₀ : s₀.Sound) (hlt : busy < done) (hs : s₀.Judging busy done d s)
    (hu : s₀.Holds u) (hpending : (d u.id).2 < busy)
    (hinner : ∀ c ∈ u.inner, ∀ v, Within v c → ¬ (d v.id).2 < busy) :
    s₀.CheckBegun busy done u (Function.update d u.id (u.fields, busy))
      (s.update u.id fun t => { t with status := busy }) := by
  have hkept := (hs.standing u hu).eq_of_pending hlt hpending
  rw [hkept] at hpending
  have hchange : { u.dressed d with status := busy } =
      { u.dressed d with fields := u.fields, status := busy } := by
    have hfields : (u.dressed d).fields = u.fields := by rw [dressed_fields, hkept]
    rw [← hfields]
  have hs₁ := hs.update hs₀ hu hinner (g := fun t => { t with status := busy }) hchange
    (.busy hpending (List.forall₂_same.mpr fun f _ => .refl f)) (Nat.lt_irrefl _)
  exact ⟨hs₀, hlt, hu, hpending, hs₁, Function.update_self ..⟩

/-- The work on a type comes to its end with its defaults checked. -/
theorem Store.Checking.finish (hs : s₀.Judging busy done d s) (hpending : (d u.id).2 < busy)
    (hb : s₀.CheckBegun busy done u (Function.update d u.id (u.fields, busy))
      (s.update u.id fun t => { t with status := busy }))
    (hw : s₀.Checking busy done u (Function.update d u.id (u.fields, busy))
      (s.update u.id fun t => { t with status := busy }) (s₀.judgedFields u) (s₀.complaints u) s') :
    ∃ d', s₀.Judging busy done d' (s'.update u.id fun t => { t with status := done }) ∧
      s₀.Proceeded busy done s (s'.update u.id fun t => { t with status := done }) ∧
      (d' u.id).2 = done := by
  obtain ⟨d₂, hs₂, hd₂, honward, notes, hnoted, hperm⟩ := hw
  have hnot : ¬ done < busy := Nat.lt_asymm hb.lt
  have hne : busy ≠ done := fun heq => Nat.lt_irrefl _ (heq ▸ hb.lt)
  have hbusy : ¬ (d₂ u.id).2 < busy := by
    rw [hd₂]
    exact Nat.lt_irrefl _
  have hchange : { u.dressed d₂ with status := done } =
      { u.dressed d₂ with fields := s₀.judgedFields u, status := done } := by
    have hfields : (u.dressed d₂).fields = s₀.judgedFields u := by rw [dressed_fields, hd₂]
    rw [← hfields]
  have hs₃ := hs₂.update hb.sound hb.held (fun c hc v hv => hs₂.begun u hb.held hbusy v (.inner hc hv))
    (g := fun t => { t with status := done }) hchange (.done hb.pending) hnot
  have hself : Function.update d₂ u.id (s₀.judgedFields u, done) u.id = (s₀.judgedFields u, done) :=
    Function.update_self ..
  have honward₃ := ((Store.Onward.update s₀ busy d u.id (u.fields, busy)).trans honward).trans
    (.update s₀ busy d₂ u.id (s₀.judgedFields u, done))
  have hnone := honward₃.finish hpending (by rw [hself]; exact hne.symm)
  refine ⟨_, hs₃, .of_dressed hb.sound hs.dressed hs₃.dressed hnone (fun v hv hbegun => ?_) ?_, by rw [hself]⟩
  · rwa [hnone.kept v hv (Option.some_ne_none _) hbegun]
  · refine ⟨notes, hnoted, ?_⟩
    have hstart : s₀.told busy done (Function.update d u.id (u.fields, busy)) = s₀.told busy done d := by
      refine told_congr fun v hv => ?_
      rw [Function.update_apply]
      split
      case isTrue hid =>
        rw [hid]
        exact iff_of_false hne fun heq => hnot (heq ▸ hpending)
      case isFalse => rfl
    rw [hstart] at hperm
    rw [List.append_nil]
    exact hperm.trans (told_update hb.sound.handles hb.held hb.pending (by rwa [hd₂])).symm

/-- One type less is to be begun. -/
theorem Store.CheckBegun.length_pending_lt (hs : s₀.Judging busy done d s) (hpending : (d u.id).2 < busy)
    (hb : s₀.CheckBegun busy done u (Function.update d u.id (u.fields, busy)) s') :
    (s'.pending busy).length < (s.pending busy).length := by
  have hgrows : s.Grows busy s' := by
    refine hs.dressed.grows hb.judging.dressed fun v _ hv => ?_
    rw [Function.update_apply]
    split
    · exact Nat.lt_irrefl _
    · exact hv
  refine hgrows.length_pending_lt (hb.judging.sound hb.sound).handles
    ((hs.dressed.mem_pending_iff hb.sound hb.held).mpr hpending) ?_
  rw [hb.judging.dressed.mem_pending_iff hb.sound hb.held, Function.update_self]
  exact Nat.lt_irrefl _

theorem applies_checking (hs₀ : s₀.Sound) (hlt : busy < done) (name : String)
    (hprocess : (judging hs₀ busy done).Processes n process) :
    (judging hs₀ busy done).Applies n
      ((checkingStep name busy done).apply (rounds + 2) (.processing busy (rounds + 2) process)) := by
  intro s w ⟨d, hs⟩ hw hpending hinner hn
  obtain ⟨u, hu, rfl⟩ := hs.dressed.holds_iff.mp hw
  rw [dressed_status] at hpending
  rw [dressed_id]
  have hbegun : ∀ c ∈ u.inner, ∀ v, Within v c → ¬ (d v.id).2 < busy := by
    intro c hc v hv
    have hnone := hinner (c.dressed d) (dressed_inner d u ▸ List.mem_map_of_mem hc)
    have hv' := SchemaType.pending_eq_nil_iff.mp hnone (v.dressed d) (within_dressed_iff.mpr ⟨v, hv, rfl⟩)
    rwa [dressed_status] at hv'
  have hb := hs.begins hs₀ hlt hu hpending hbegun
  have hless := Nat.lt_of_lt_of_le (hb.length_pending_lt hs hpending) hn
  unfold Conduct.Runs Step.apply
  rw [wp_bind, wp_update, wp_bind]
  change wp (runPasses name _ _ _ [.checkDefaults]) _ _ _
  rw [runPasses, wp_bind, wp_tryCatch]
  refine wp_mono (Store.Checking.wp_checkDefaults rounds hb hprocess hless) (fun _ s' hw' => ?_)
    fun e s' hfails => ?_
  · obtain ⟨d', hs', hp, hdone⟩ := hw'.finish hs hpending hb
    refine wp_pure.mpr (wp_update.mpr ⟨⟨d', hs'⟩, hp, fun hmem' => ?_⟩)
    have hlt' := (hs'.dressed.mem_pending_iff hs₀ hu).mp hmem'
    rw [hdone] at hlt'
    exact Nat.lt_asymm hlt hlt'
  · have hhandles : (s.update u.id fun t => { t with status := busy }).handles = s.handles := by
      rw [hb.judging.dressed.handles, hs.dressed.handles]
    have hmem' : u.id ∈ s.handles := Store.mem_handles_iff.mpr ⟨_, hw, dressed_id d u⟩
    obtain ⟨t, ht⟩ := Store.exists_get? (hfails.2 (hhandles ▸ hmem'))
    rw [wp_bind, wp_typeOf ht, wp_throw]
    exact ⟨hfails.1, hhandles ▸ hfails.2⟩

/-- When everything is begun, what was not begun at the start is done. -/
theorem Store.Judging.eq_judgedDress (hs : s.Sound) (h : s.Judging busy done d s')
    (honward : s.Onward busy none s.ownDress d) (hnone : s'.pending busy = []) (hu : s.Holds u) :
    d u.id = s.judgedDress busy done u.id := by
  have hown := Store.ownDress_id hs.handles hu
  have hbegun : ¬ (d u.id).2 < busy := by
    rw [← h.dressed.mem_pending_iff hs hu, hnone]
    exact List.not_mem_nil
  rw [Store.judgedDress_id hs.handles hu]
  split
  case isTrue hpending =>
    have hidle := honward.idle u hu (Option.some_ne_none _)
    rw [hown] at hidle
    generalize hdress : d u.id = dress at hbegun hidle
    have hstanding := hdress ▸ h.standing u hu
    cases hstanding with
    | kept => exact absurd hpending hbegun
    | busy => exact absurd (hidle rfl ▸ hpending) (Nat.lt_irrefl _)
    | done => rfl
  case isFalse hbegun₀ =>
    rw [honward.kept u hu (Option.some_ne_none _) (by rwa [hown]), hown]

/-- The step gives every type that is not begun the fields that the verdicts on its defaults say, and
warns of what they warn of. It fails only if something nested is missing. -/
theorem wp_run_checkingStep (hs : s.Sound) (hclosed : s.Closed busy) (hlt : busy < done) (name : String) :
    wp ((checkingStep name busy done).run false)
      (fun _ s' => s.Dressed (s.judgedDress busy done) s' ∧ ∃ notes,
        noted s'.journal = noted s.journal ++ notes ∧
        notes ~ ((walkAll s.types).filter (·.status < busy)).flatMap s.complaints)
      (fun e _ => s.Strays e.cause) s := by
  have hstart : s.Judging busy done s.ownDress s := .start hs hclosed
  have hrun : (judging hs busy done).conduct.Runs ((checkingStep name busy done).run false) s
      fun _ s' => s'.pending busy = [] :=
    Discipline.run rfl rfl rfl ⟨_, hstart⟩ fun rounds _ _ _ _ hprocess => applies_checking hs hlt name hprocess
  refine wp_mono hrun ?_ fun _ _ hfails => hfails.1
  rintro _ s' ⟨⟨d, hs'⟩, hp, hnone⟩
  obtain ⟨d', hd', honward, notes, hnoted, hperm⟩ := hp.dresses _ hstart.dressed
  have hs' := hs'.redress hs hd'
  have hend : ∀ u, s.Holds u → d' u.id = s.judgedDress busy done u.id :=
    fun u hu => hs'.eq_judgedDress hs honward hnone hu
  refine ⟨hd'.congr fun u hu => (hend u hu).symm, notes, hnoted, ?_⟩
  rw [Store.told_ownDress hs.handles hlt, List.nil_append, List.append_nil,
    Store.told_congr fun u hu => by rw [hend u hu], Store.told_judgedDress hs.handles] at hperm
  exact hperm

/-- The step comes to the verdicts on all defaults. By them a default that the rule on lists and optional
elements leaves stays if one of the types takes it, unless only natives do and there is an enumeration; it
is dropped only for an enumeration, and the field becomes a string only without one. -/
theorem checkingStep_judges (hs : s.Sound) (hclosed : s.Closed busy) (hlt : busy < done) (name : String) :
    wp ((checkingStep name busy done).run false)
      (fun _ s' => s.Dressed (s.judgedDress busy done) s' ∧ ∃ notes,
        noted s'.journal = noted s.journal ++ notes ∧
        notes ~ ((walkAll s.types).filter (·.status < busy)).flatMap s.complaints)
      (fun e _ => s.Strays e.cause) s ∧
    ∀ (u : SchemaType) (f : Field), f.isEnumeration = false → f.defaultValue ≠ "" → f.cannotDefault = false →
      f.Judged (s.source? u) (f.judge (s.source? u) u).1 (f.judge (s.source? u) u).2 := by
  refine ⟨wp_run_checkingStep hs hclosed hlt name, fun u f hmember hdefault hcan => ?_⟩
  exact (f.checked_verdict (f.enumerations (s.source? u)) u).judged hmember hdefault hcan

namespace Defaulted

def native (name : String) : FieldType :=
  .ofNative ⟨Native.ns, name⟩

def colour : SchemaType where
  id := 2
  qname := ⟨"urn:t", "Colour"⟩
  tag := .simpleType
  fields := ["red", "green"].map fun value =>
    { name := value, tag := .enumeration, types := [native "string"], defaultValue := value }

def coloured : FieldType :=
  { qname := colour.qname, reference := colour.id }

def valued (name : String) (types : List FieldType) (defaultValue : String) : Field :=
  { name, tag := .attr, types, defaultValue }

def item (fields : List Field) : SchemaType where
  id := 1
  qname := ⟨"urn:t", "Item"⟩
  tag := .complexType
  fields := fields

/-- A type before the enumeration that it refers to. -/
def storeOf (fields : List Field) : Store :=
  [Operation.enter (item fields), Operation.enter colour, Operation.extend [0, 1]].foldl Operation.run
    { nextHandle := 3 }

/-- The defaults and types of the fields. -/
def outcome (s : Store) : Option (List (String × List FieldType)) :=
  (s.get? 1).map (·.fields.map fun f => (f.defaultValue, f.types))

/-- A default that has a member, one that has none, one that is no number and one that is. -/
def plain : List Field :=
  [valued "colour" [coloured] "green", valued "shade" [coloured] "blue",
    valued "count" [native "int"] "abc", valued "size" [native "int"] "42"]

theorem checkingStep_judges_plain :
    (storeOf plain).Sound ∧ (storeOf plain).Closed .resolving ∧
    wp ((checkingStep "resolve" .resolving .resolved).run false)
      (fun _ s' => (storeOf plain).Dressed ((storeOf plain).judgedDress .resolving .resolved) s' ∧
        outcome s' = some [("green", [coloured]), ("", [coloured]), ("abc", [native "string"]),
          ("42", [native "int"])])
      (fun _ _ => False) (storeOf plain) ∧
    (valued "colour" [coloured] "green").Judged ((storeOf plain).source? (item plain))
      ((valued "colour" [coloured] "green").judge ((storeOf plain).source? (item plain)) (item plain)).1
      ((valued "colour" [coloured] "green").judge ((storeOf plain).source? (item plain)) (item plain)).2 := by
  have hconsistent : (storeOf plain).Consistent :=
    (Store.Consistent.empty {} 2).runAll (by decide +kernel)
  have hs := hconsistent.sound (by decide +kernel) (by decide +kernel)
  have hclosed : (storeOf plain).Closed .resolving := by
    simp only [Store.Closed, Store.holds_iff_mem_walkAll]
    decide +kernel
  have hlt : Status.resolving < .resolved := by decide
  obtain ⟨hrun, hjudged⟩ := checkingStep_judges hs hclosed hlt "resolve"
  have hends : wp ((checkingStep "resolve" .resolving .resolved).run false)
      (fun _ s' => outcome s' = some [("green", [coloured]), ("", [coloured]), ("abc", [native "string"]),
        ("42", [native "int"])])
      (fun _ _ => False) (storeOf plain) := by decide +kernel
  exact ⟨hs, hclosed, wp_mono (wp_and hrun hends) (fun _ _ h => ⟨h.1.1, h.2⟩) fun _ _ h => h.2,
    hjudged _ _ rfl (by decide) rfl⟩

/-- A number, where a colour or a number is asked for. -/
def mixed : Field :=
  valued "a" [coloured, native "int"] "5"

/-- The number is lost, because there is no such colour. -/
theorem checkingStep_drops_number :
    mixed.isEnumeration = false ∧ mixed.defaultValue ≠ "" ∧ mixed.cannotDefault = false ∧
    mixed.Acceptable ((storeOf [mixed]).source? (item [mixed])) ∧
    wp ((checkingStep "resolve" .resolving .resolved).run false)
      (fun _ s' => outcome s' = some [("", mixed.types)] ∧
        noted s'.journal = [mixed.enumWarning (item [mixed])])
      (fun _ _ => False) (storeOf [mixed]) := by
  refine ⟨rfl, by decide, rfl, .inr ⟨native "int", by decide, rfl, by decide +kernel⟩, ?_⟩
  decide +kernel

end Defaulted

end Schemata
