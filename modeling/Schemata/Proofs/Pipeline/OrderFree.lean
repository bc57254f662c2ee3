import Mathlib.Data.List.Find
import Schemata.Proofs.Value.Defaults

/-!
# Resolving in any order

The resolve step gives every type the fields of `resolvedFields`, which look at nothing but what is there
before the step. With distinct names and handles what is there does not depend on the order of the
roots, so neither does what the step makes of it. Without settled bases it does: the check of
overrides reads a base as it is, before or after the step has been at it.
-/

namespace Schemata

open Compile SchemaType Store

variable {s₀ s s' : Store} {hs₀ : s₀.Ready} {d : Dress} {t u v : SchemaType} {h : Handle}
  {fs : List Field} {active : Option Handle} {n rounds : Nat} {process : Handle → Compile Unit}

-- ---------------------------------------------------------------------------
-- One type
-- ---------------------------------------------------------------------------

/-- While the bases of a type are at any point of their way, a check of its overrides comes to what it
comes to in the beginning. -/
theorem checkOverrides_resolving (hs₀ : s₀.Ready) (hs : s₀.Resolving (some u.id) d s) (hu : s₀.Holds u)
    (hfields : (d u.id).1 = u.fields.map (s₀.checkedWhole u)) :
    (s.checkOverrides (u.dressed d)).1 = s₀.resolvedFields u := by
  refine checkOverrides_congr (dressed_fields d u ▸ hfields) ?_
  have hshown : ∀ b ∈ s₀.lineage u, s₀.Shows b (d b.id).1 := by
    intro b hb
    obtain ⟨hheld, hne⟩ := holds_of_mem_lineage hs₀.sound hs₀.index hb
    exact (hs.reached b hheld fun heq => hne (Option.some.inj heq)).shows
  have hthins := (hs₀.steady.settled u hu).thins hshown
  rw [← hs.dressed.map_heritage hs₀.sound hs₀.index] at hthins
  refine hthins.mono ?_
  rintro k ⟨f, hf, rfl⟩
  obtain ⟨g, hg, rfl⟩ := List.mem_map.mp hf
  exact ⟨g, hg, ((s₀.akin_checkedField u g).key).symm⟩

theorem BeingChecked.runs_checkOverrides {finder : Finder} (hs : (resolving hs₀ (some u.id)).Inv s)
    (hu : s₀.Holds u) (hw : BeingChecked u.id (u.fields.map (s₀.checkedWhole u)) s) :
    (resolving hs₀ (some u.id)).conduct.Runs (Pass.checkOverrides.run rounds finder u.id) s fun _ =>
      BeingChecked u.id (s₀.resolvedFields u) := by
  refine .get_bind (runs_typeOf_bind hs hw fun t ht hid hfields => ?_)
  have hchecked : (s.checkOverrides t).1 = s₀.resolvedFields u := by
    obtain ⟨d, hs⟩ := hs
    obtain rfl := hs.eq_dressed hs₀ hu ht hid
    exact checkOverrides_resolving hs₀ hs hu (dressed_fields d u ▸ hfields)
  refine .bind (runs_update (s₀.resolvedFields u) hs hu hw fun t' ht' hid' _ hstatus => ?_)
    fun _ s' hs' _ hw' => ?_
  · obtain rfl := ht'.eq_of_id ((resolving hs₀ _).sound hs).handles ht (hid'.trans hid.symm)
    change { t' with fields := (s.checkOverrides t').1 } = _
    rw [hchecked, ← hstatus]
  · refine .forM _ (fun note _ s'' hs'' hw'' => ?_) hs' hw'
    refine (Discipline.runs_quiet hs'' rfl trivial).mono ?_
    rintro _ _ - - rfl
    exact hw''

theorem applies_resolve (hprocess : (resolving hs₀ none).Processes n process) :
    (resolving hs₀ none).Applies n
      (Step.resolve.apply (rounds + 2) (.processing .resolving (rounds + 2) process)) := by
  intro s w hinv hw hlt hinner hn
  obtain ⟨d, hs⟩ := hinv
  obtain ⟨u, hu, rfl⟩ := hs.dressed.holds_iff.mp hw
  rw [dressed_status] at hlt
  rw [dressed_id]
  have hbusy : ¬ Status.resolving < .resolving := by decide
  have hdone : ¬ Status.resolved < .resolving := by decide
  have hwaiting := (hs.reached u hu (Option.some_ne_none _)).fields_eq hlt
  have hbegun : ∀ c ∈ u.inner, ∀ v, Within v c → ¬ (d v.id).2 < .resolving := by
    intro c hc v hv
    have hnone := hinner (c.dressed d) (dressed_inner d u ▸ List.mem_map_of_mem hc)
    have hv' := SchemaType.pending_eq_nil_iff.mp hnone (v.dressed d) (within_dressed_iff.mpr ⟨v, hv, rfl⟩)
    rwa [dressed_status] at hv'
  -- the type is begun
  obtain ⟨d₁, hs₁, hp₁, hd₁⟩ := hs.setStatus hs₀ (.inl rfl) hu hbegun hbusy
  rw [hwaiting] at hd₁
  have hn₁ := hp₁.grows.length_pending_lt (hs₁.sound hs₀).handles ((hs.mem_pending_iff hs₀ hu).mpr hlt)
    (by rwa [hs₁.mem_pending_iff hs₀ hu, hd₁])
  have hw₁ := BeingChecked.of_dress hs₁ hu hd₁
  have hdefaults := hw₁.runs_checkDefaults rounds hprocess ⟨_, hs₁⟩
    (Nat.lt_of_lt_of_le hn₁ hn) hu
  have hpasses : (resolving hs₀ (some u.id)).conduct.Runs
      (runPasses Step.resolve.name (rounds + 2) (.processing .resolving (rounds + 2) process) u.id
        Step.resolve.passes) _ fun _ => BeingChecked u.id (s₀.resolvedFields u) :=
    Discipline.runs_runPasses_cons hw₁.mem_handles hdefaults fun s₂ hs₂ _ hw₂ =>
      Discipline.runs_runPasses hw₂.mem_handles (hw₂.runs_checkOverrides hs₂ hu)
  unfold Conduct.Runs Step.apply
  rw [wp_bind, wp_update, wp_bind]
  refine wp_mono hpasses ?_ fun _ _ hfails => hfails.1.elim
  rintro _ s₂ ⟨⟨d₂, hs₂⟩, hp₂, hw₂⟩
  -- and is done
  have hd₂ := hw₂.dress_eq hs₀ hs₂ hu
  have hbegun₂ : ¬ (d₂ u.id).2 < .resolving := by rwa [hd₂]
  obtain ⟨d₃, hs₃, hp₃, hd₃⟩ := hs₂.setStatus hs₀ (.inr rfl) hu
    (fun c hc v hv => hs₂.begun u hu hbegun₂ v (.inner hc hv)) hdone
  rw [hd₂] at hd₃
  have hnone := hs₃.release hs₀ hu (hd₃ ▸ .done)
  rw [wp_update]
  refine ⟨⟨d₃, hnone⟩, ((hp₁.trans hp₂).trans hp₃).finish (fun t ht hid => ?_) fun t ht hid => ?_, ?_⟩
  · rwa [hs.eq_dressed hs₀ hu ht hid, dressed_status]
  · rw [hs₃.eq_dressed hs₀ hu ht hid, dressed_status, hd₃]
    change Status.resolved ≠ .resolving
    decide
  · intro hmem
    have hlt₃ := (hs₃.mem_pending_iff hs₀ hu).mp hmem
    exact hdone (by rwa [hd₃] at hlt₃)

-- ---------------------------------------------------------------------------
-- The step
-- ---------------------------------------------------------------------------

/-- What types are dressed in when they are resolved. -/
def Store.resolvedDress (s : Store) : Dress := fun h =>
  match (walkAll s.types).find? (·.id == h) with
  | some u => (s.resolvedFields u, .resolved)
  | none => ([], .resolved)

theorem Store.resolvedDress_id (hs : s.handles.Nodup) (hu : s.Holds u) :
    s.resolvedDress u.id = (s.resolvedFields u, .resolved) := by
  rw [← map_id_walkAll] at hs
  rw [resolvedDress, (Lists.find?_key_eq_some_iff hs).mpr ⟨holds_iff_mem_walkAll.mp hu, rfl⟩]

/-- The step ends without a failure, with the fields of every type resolved. -/
theorem resolve_dresses (hs : s.Ready) :
    wp (Step.resolve.run false) (fun _ s' => s.Dressed s.resolvedDress s') (fun _ _ => False) s := by
  have hstart : s.Resolving none s.ownDress s := by
    refine ⟨dressed_ownDress hs.sound.handles, fun u hu _ => ?_, fun u hu hbegun => ?_⟩
    · rw [ownDress_id hs.sound.handles hu]
      exact .waiting (hs.pending u hu)
    · rw [ownDress_id hs.sound.handles hu] at hbegun
      exact absurd (hs.pending u hu) hbegun
  have hrun : (resolving hs none).conduct.Runs (Step.resolve.run false) s
      fun _ s' => s'.pending .resolving = [] :=
    Discipline.run rfl rfl rfl ⟨_, hstart⟩ fun rounds _ _ _ _ hprocess => applies_resolve hprocess
  refine wp_mono hrun ?_ fun _ _ hfails => hfails.1.elim
  rintro _ s' ⟨⟨d, hs'⟩, hp, hdone⟩
  refine hs'.dressed.congr fun u hu => ?_
  rw [resolvedDress_id hs.sound.handles hu]
  have hbegun : ¬ (d u.id).2 < .resolving := by
    rw [← hs'.mem_pending_iff hs hu]
    exact hdone ▸ List.not_mem_nil
  have hreached := hs'.reached u hu (Option.some_ne_none _)
  have hbusy : (d u.id).2 ≠ .resolving := by
    intro hbusy
    obtain ⟨v, hv, -, hstatus⟩ := hp.busy (u.dressed d) (hs'.dressed.holds hu) (by rwa [dressed_status])
      (Option.some_ne_none _)
    have hlt := hs.pending v hv
    rw [hstatus] at hlt
    exact absurd hlt (by decide)
  generalize d u.id = dress at hreached hbegun hbusy
  cases hreached with
  | waiting hstatus => exact absurd hstatus hbegun
  | busy => exact absurd rfl hbusy
  | done => rfl

-- ---------------------------------------------------------------------------
-- The same types in another order
-- ---------------------------------------------------------------------------

namespace Store

/-- A store that has the types of another one in some order, and finds the same ones. -/
structure Shuffles (s s' : Store) : Prop where
  types : s'.types.Perm s.types
  lookup? : s'.lookup? = s.lookup?
  ofHandle? : s'.ofHandle? = s.ofHandle?

theorem walkAll_perm (hperm : s'.types.Perm s.types) :
    (walkAll s'.types).Perm (walkAll s.types) := by
  rw [walkAll_eq_flatMap, walkAll_eq_flatMap]
  exact hperm.flatMap_right _

theorem shuffles_of_perm (hs : s.Sound) (hindex : s.IndexedByHandle) (hs' : s'.Sound)
    (hindex' : s'.IndexedByHandle) (hperm : s'.types.Perm s.types)
    (hnames : (s.types.map (·.qname)).Nodup) : s.Shuffles s' where
  types := hperm
  lookup? := by
    funext q p
    rw [hs.lookup?_eq, hs'.lookup?_eq]
    refine List.find?_eq_find?_of_perm hperm ?_
    rintro t ⟨ht, htp⟩ u ⟨hu, hup⟩
    rw [Bool.and_eq_true, beq_iff_eq] at htp hup
    exact List.inj_on_of_nodup_map hnames (hperm.mem_iff.mp ht) (hperm.mem_iff.mp hu)
      (htp.1.trans hup.1.symm)
  ofHandle? := by
    funext h
    rw [ofHandle?_eq hs hindex, ofHandle?_eq hs' hindex']
    refine List.find?_eq_find?_of_perm (walkAll_perm hperm) ?_
    rintro t ⟨ht, hth⟩ u ⟨hu, huh⟩
    exact Holds.eq_of_id hs'.handles (holds_iff_mem_walkAll.mpr ht) (holds_iff_mem_walkAll.mpr hu)
      ((beq_iff_eq.mp hth).trans (beq_iff_eq.mp huh).symm)

namespace Shuffles

theorem holds_iff (hp : s.Shuffles s') : s'.Holds u ↔ s.Holds u := by
  rw [holds_iff_mem_walkAll, holds_iff_mem_walkAll, (walkAll_perm hp.types).mem_iff]

theorem lineageFrom (hp : s.Shuffles s') (steps : Nat) (queue : List Extension) (seen : List Handle) :
    s'.lineageFrom steps queue seen = s.lineageFrom steps queue seen := by
  have hfind : ∀ h, s'.ofHandle? h = (s.ofHandle? h).map fun u => u := fun h => by
    rw [hp.ofHandle?, Option.map_id']
  rw [lineageFrom_map (fun _ => rfl) hfind, List.map_id']

theorem heritage (hp : s.Shuffles s') (t : SchemaType) : s'.heritage t = s.heritage t := by
  have hbound : s'.inheritanceBound t = s.inheritanceBound t := by
    rw [inheritanceBound, inheritanceBound,
      Lists.total_perm ((walkAll_perm hp.types).map (·.extensions.length))]
  rw [Store.heritage, Store.heritage, lineage, lineage, hbound, hp.lineageFrom]

theorem inheritedFields (hp : s.Shuffles s') (t : SchemaType) :
    s'.inheritedFields t = s.inheritedFields t := by
  have hgathered : ∀ s : Store, s.inheritedFields t =
      ((s.heritage t).map (·.2)).foldl inheritField [] := fun s => by
    rw [map_snd_heritage, lineage]
    exact gatherFields_eq ..
  rw [hgathered, hgathered, hp.heritage]

theorem checkOverrides (hp : s.Shuffles s') (t : SchemaType) :
    s'.checkOverrides t = s.checkOverrides t := by
  rw [Store.checkOverrides, Store.checkOverrides, hp.inheritedFields]

theorem checkedField (hp : s.Shuffles s') (u : SchemaType) (f : Field) :
    s'.checkedField u f = s.checkedField u f := by
  have hsource : s'.source? = s.source? := by
    funext u ft
    rw [source?, source?, hp.lookup?]
  have hmember : s'.memberType = s.memberType := by
    funext u
    rw [memberType, memberType, hp.checkOverrides]
  have hmatch : ∀ f sofar fts, s'.matchDefault u f sofar fts = s.matchDefault u f sofar fts := by
    intro f sofar fts
    induction fts generalizing sofar with
    | nil => rfl
    | cons ft fts ih => simp only [matchDefault, hsource, hmember, ih]
  simp only [Store.checkedField, hmatch]

theorem checkedWhole (hp : s.Shuffles s') (u : SchemaType) : s'.checkedWhole u = s.checkedWhole u := by
  funext f
  simp only [Store.checkedWhole, hp.checkedField, funext (hp.checkedField u)]

theorem resolvedFields (hp : s.Shuffles s') (u : SchemaType) :
    s'.resolvedFields u = s.resolvedFields u := by
  rw [Store.resolvedFields, Store.resolvedFields, hp.checkedWhole, hp.checkOverrides]

theorem settled (hp : s.Shuffles s') {inherited : List (SchemaType × Field)}
    (h : s.SettledFields t inherited) : s'.SettledFields t inherited := by
  induction inherited with
  | nil => trivial
  | cons bf behind ih =>
    obtain ⟨b, f⟩ := bf
    refine ⟨⟨?_, ?_, ?_⟩, ih h.2⟩
    · rw [hp.inheritedFields]
      exact h.1.overrides
    · rw [hp.checkedField]
      exact h.1.face
    · rw [hp.inheritedFields, hp.checkedField]
      exact h.1.covered

theorem ready (hp : s.Shuffles s') (hs : s.Ready) (hs' : s'.Sound) (hindex' : s'.IndexedByHandle) :
    s'.Ready where
  sound := hs'
  index := hindex'
  pending u hu := hs.pending u (hp.holds_iff.mp hu)
  sheltered u hu := hs.sheltered u (hp.holds_iff.mp hu)
  steady := by
    refine ⟨fun u hu => hs.steady.members u (hp.holds_iff.mp hu), fun t ht => ?_⟩
    rw [hp.heritage]
    exact hp.settled (hs.steady.settled t (hp.holds_iff.mp ht))

theorem resolvedDress (hp : s.Shuffles s') (hs : s.handles.Nodup) (hs' : s'.handles.Nodup)
    (hu : s.Holds u) : s'.resolvedDress u.id = s.resolvedDress u.id := by
  rw [resolvedDress_id hs hu, resolvedDress_id hs' (hp.holds_iff.mpr hu), hp.resolvedFields]

end Shuffles

end Store

/-- As long as what is inherited is settled, the step gives every type the same fields whatever the order
of the roots. -/
theorem resolve_order_free (hs : s.Ready) (hs' : s'.Sound) (hindex' : s'.IndexedByHandle)
    (hperm : s'.types.Perm s.types) (hnames : (s.types.map (·.qname)).Nodup) :
    wp (Step.resolve.run false) (fun _ r =>
      wp (Step.resolve.run false) (fun _ r' => r'.types.Perm r.types) (fun _ _ => False) s')
      (fun _ _ => False) s := by
  have hp := shuffles_of_perm hs.sound hs.index hs' hindex' hperm hnames
  refine wp_mono (resolve_dresses hs) (fun _ r hr => ?_) fun _ _ => id
  refine wp_mono (resolve_dresses (hp.ready hs hs' hindex')) (fun _ r' hr' => ?_) fun _ _ => id
  have hsame := hr'.congr fun u hu =>
    (hp.resolvedDress hs.sound.handles hs'.handles (hp.holds_iff.mp hu)).symm
  rw [hr.types, hsame.types]
  exact hperm.map _

namespace Overtaken

/-- The store that has types with handles of their own as its roots, in order. -/
def storeOf (ts : List SchemaType) : Store :=
  (ts.map Operation.enter ++ [Operation.extend (List.range ts.length)]).foldl Operation.run
    { nextHandle := ts.length + 1 }

theorem consistent_storeOf {ts : List SchemaType} (hts : Operation.AllowedAll { nextHandle := ts.length + 1 }
    (ts.map Operation.enter ++ [Operation.extend (List.range ts.length)])) :
    (storeOf ts).Consistent :=
  (Consistent.empty {} ts.length).runAll hts

def element (name : String) (type : FieldType) (defaultValue : String) : Field :=
  { name, tag := .element, types := [type], defaultValue }

def record (id : Handle) (name : String) (fields : List Field) : SchemaType :=
  { id, qname := ⟨"urn:t", name⟩, tag := .complexType, fields }

def derivation (base : SchemaType) : Extension :=
  { tag := .extension, type := { qname := base.qname, reference := base.id } }

def fieldNames (s : Store) (h : Handle) : Option (List String) :=
  (s.ofHandle? h).map (·.fields.map (·.name))

def anything : Field :=
  element "a" (.ofNative Native.anyType) ""

def base : SchemaType :=
  record 1 "B" [anything]

def derived : SchemaType :=
  { record 2 "D" [anything] with extensions := [derivation base] }

/-- An element that may hold anything is seen to be optional only when it is its turn. So a type that
comes before its base keeps a field that it loses when it comes after it. -/
theorem resolve_overtakes_base :
    ((storeOf [derived, base]).Sound ∧ (storeOf [derived, base]).IndexedByHandle) ∧
    ((storeOf [base, derived]).Sound ∧ (storeOf [base, derived]).IndexedByHandle) ∧
    (storeOf [base, derived]).types.Perm (storeOf [derived, base]).types ∧
    ((storeOf [derived, base]).types.map (·.qname)).Nodup ∧
    -- all references are bound, and no base has bases
    (∀ t ∈ (storeOf [derived, base]).types, ∀ ft ∈ t.fieldTypes, ft.native = true ∨
      ((storeOf [derived, base]).ofHandle? ft.reference).any (·.extensions.isEmpty) = true) ∧
    (∀ t ∈ (storeOf [derived, base]).types, t.status = .raw) ∧
    wp (Step.resolve.run false) (fun _ r => fieldNames r derived.id = some ["a"]) (fun _ _ => False)
      (storeOf [derived, base]) ∧
    wp (Step.resolve.run false) (fun _ r => fieldNames r derived.id = some []) (fun _ _ => False)
      (storeOf [base, derived]) := by
  have hfirst : (storeOf [derived, base]).Consistent := consistent_storeOf (by decide +kernel)
  have hsecond : (storeOf [base, derived]).Consistent := consistent_storeOf (by decide +kernel)
  refine ⟨⟨hfirst.sound (by decide +kernel) (by decide +kernel), hfirst.byHandle⟩,
    ⟨hsecond.sound (by decide +kernel) (by decide +kernel), hsecond.byHandle⟩,
    List.Perm.swap .., ?_⟩
  decide +kernel

def colour : SchemaType :=
  { record 3 "Colour" [] with
    tag := .simpleType
    fields := ["red", "green"].map fun value =>
      { name := value, tag := .enumeration, types := [.ofNative Native.string], defaultValue := value } }

def paint (value : String) : SchemaType → SchemaType := fun t =>
  { t with fields := [element "name" (.ofNative Native.string) "",
      element "colour" { qname := colour.qname, reference := colour.id } value] }

def article : SchemaType :=
  paint "red" (record 1 "Article" [])

/-- Restates the name, and has a default that is no member of the enumeration. -/
def discount : SchemaType :=
  { paint "pink" (record 2 "Discount" []) with extensions := [derivation article] }

theorem resolve_keeps_order :
    (storeOf [article, discount, colour]).Ready ∧
    (storeOf [discount, article, colour]).Sound ∧ (storeOf [discount, article, colour]).IndexedByHandle ∧
    (storeOf [discount, article, colour]).types.Perm (storeOf [article, discount, colour]).types ∧
    ((storeOf [article, discount, colour]).types.map (·.qname)).Nodup ∧
    wp (Step.resolve.run false) (fun _ r =>
      wp (Step.resolve.run false) (fun _ r' => r'.types.Perm r.types) (fun _ _ => False)
        (storeOf [discount, article, colour]))
      (fun _ _ => False) (storeOf [article, discount, colour]) ∧
    wp (Step.resolve.run false) (fun _ r => fieldNames r discount.id = some ["colour"])
      (fun _ _ => False) (storeOf [article, discount, colour]) := by
  have hfirst : (storeOf [article, discount, colour]).Consistent := consistent_storeOf (by decide +kernel)
  have hsecond : (storeOf [discount, article, colour]).Consistent := consistent_storeOf (by decide +kernel)
  have hready : (storeOf [article, discount, colour]).Ready := by
    refine ⟨hfirst.sound (by decide +kernel) (by decide +kernel), hfirst.byHandle, ?_, ?_, by decide +kernel⟩
    · simp only [holds_iff_mem_walkAll]
      decide +kernel
    · simp only [holds_iff_mem_walkAll, Sheltered]
      decide +kernel
  have hsound := hsecond.sound (by decide +kernel) (by decide +kernel)
  have hperm : (storeOf [discount, article, colour]).types.Perm
      (storeOf [article, discount, colour]).types := .swap ..
  have hnames : ((storeOf [article, discount, colour]).types.map (·.qname)).Nodup := by decide +kernel
  exact ⟨hready, hsound, hsecond.byHandle, hperm, hnames,
    resolve_order_free hready hsound hsecond.byHandle hperm hnames, by decide +kernel⟩

end Overtaken

end Schemata
