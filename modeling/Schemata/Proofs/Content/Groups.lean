import Schemata.Pipeline.Stage
import Schemata.Proofs.Step.Progress

/-!
# Expansion of groups

Types are ungrouping while they are worked on and ungrouped afterwards. A type that is ungrouping has
a reference to a group left, except the one that is worked on at the moment, when its last reference
has just been replaced; a type that is ungrouped has none. A copy of a type has come as far as the
type, so nothing works on a copy of a type that is ungrouping.

While a reference is expanded, the type that holds it has the reference still, so what is looked up and
copied in between finds every type that is ungrouping with a reference left. Fields that take the
place of a reference are expanded in turn; the names of the groups that they stem from are names of
different roots, which bounds how long this goes on.
-/

namespace Schemata

open SchemaType

-- ---------------------------------------------------------------------------
-- How far types have come
-- ---------------------------------------------------------------------------

theorem Status.lt_ungrouping_iff {st : Status} : st < .ungrouping ↔ st = .raw := by
  cases st <;> decide

namespace SchemaType

/-- How far a type has come; `active` is the type that is worked on. -/
structure Ungrouping (active : Option Handle) (u : SchemaType) : Prop where
  status : u.status = .raw ∨ u.status = .ungrouping ∨ u.status = .ungrouped
  busy : u.status = .ungrouping → some u.id ≠ active → u.HasGroupField
  done : u.status = .ungrouped → ¬ u.HasGroupField

theorem Ungrouping.withInner {active : Option Handle} {u : SchemaType} (hu : u.Ungrouping active)
    (inner : List SchemaType) : (u.withInner inner).Ungrouping active :=
  ⟨hu.status, hu.busy, hu.done⟩

end SchemaType

namespace Store

variable {s₀ s : Store} {t u : SchemaType} {active active' : Option Handle} {next : Handle}
  {g : SchemaType → SchemaType} {extra : List SchemaType}

/-- The type is nested in a group. -/
def InGroup (s : Store) (u : SchemaType) : Prop :=
  ∃ root ∈ s.types, root.isGroup = true ∧ ∃ c ∈ root.inner, Within u c

/-- No type that is nested in a group refers to a group. -/
def GroupsFlat (s : Store) : Prop :=
  ∀ u, s.InGroup u → ¬ u.HasGroupField

theorem groupsFlat_iff : s.GroupsFlat ↔ ∀ root ∈ s.types, root.isGroup = true →
    ∀ u ∈ walkAll root.inner, ∀ f ∈ u.fields, f.isGroup = false := by
  simp only [GroupsFlat, InGroup, HasGroupField, mem_walkAll_iff, not_exists, not_and,
    Bool.not_eq_true]
  constructor
  · exact fun hflat root hroot hgroup u hu => hflat u ⟨root, hroot, hgroup, hu⟩
  · rintro hflat u ⟨root, hroot, hgroup, hu⟩
    exact hflat root hroot hgroup u hu

instance : Decidable s.GroupsFlat :=
  decidable_of_iff' _ groupsFlat_iff

/-- What holds of a store while its groups are expanded; `s₀` is the store that this started with. -/
structure Ungrouping (s₀ : Store) (active : Option Handle) (s : Store) : Prop where
  sound : s.Sound
  closed : s.Closed .ungrouping
  outline : s.roots.map Entry.outline = s₀.roots.map Entry.outline
  types : ∀ u, s.Holds u → u.Ungrouping active
  flat : s₀.GroupsFlat → s.GroupsFlat ∧ ∀ u, s.Holds u → u.HasGroupField → u.id ∈ s₀.handles

namespace Ungrouping

theorem of_none (hnone : s₀.Ungrouping none s) (active : Option Handle) : s₀.Ungrouping active s :=
  { hnone with
    types := fun u hu => { hnone.types u hu with
      busy := fun hbusy _ => (hnone.types u hu).busy hbusy nofun } }

/-- While the type that is worked on has a reference left, it is like the others. -/
theorem none_of_hasGroupField (hs : s₀.Ungrouping (some t.id) s) (ht : s.Holds t)
    (hfield : t.HasGroupField) : s₀.Ungrouping none s :=
  { hs with
    types := fun u hu => { hs.types u hu with
      busy := fun hbusy _ => by
        by_cases hid : u.id = t.id
        · rwa [hu.eq_of_id hs.sound.handles ht hid]
        · exact (hs.types u hu).busy hbusy fun heq => hid (Option.some.inj heq) } }

end Ungrouping

namespace Change

/-- The store stays in order when the changed type does. -/
theorem ungrouping (hc : s.Change .ungrouping g extra next) (hs : s₀.Ungrouping active s)
    (hactive : active = none ∨ active = some t.id) (ht : s.Holds t)
    (hinner : t.inner.flatMap (SchemaType.pending .ungrouping) = [])
    (htype : (g t).Ungrouping active') (hfield : (g t).HasGroupField → t.HasGroupField)
    (hextra : ∀ x ∈ extra, ∀ v, Within v x → v.Ungrouping none)
    (hflat : s₀.GroupsFlat → ∀ x ∈ extra, ∀ v, Within v x → ¬ v.HasGroupField) :
    s₀.Ungrouping active' ({ s with nextHandle := next }.update t.id g) := by
  have hkept : ∀ u, s.Holds u → (u.updateAt t.id g).HasGroupField → u.HasGroupField := by
    intro u hu hfield'
    by_cases hid : u.id = t.id
    · obtain rfl := hu.eq_of_id hs.sound.handles ht hid
      rw [updateAt_of_eq rfl] at hfield'
      exact hfield hfield'
    · rwa [updateAt_of_ne hid] at hfield'
  constructor
  case sound => exact hc.sound hs.sound ht
  case closed => exact hc.closed hs.sound hs.closed ht hinner
  case outline => exact (outline_update hc.keeps _ t.id).trans hs.outline
  case types =>
    refine hc.forall_holds hs.sound ht (fun u inner hu => hu.withInner inner) (fun u hu hid => ?_)
      htype fun x hx v hv => ?_
    · have hne : some u.id ≠ active := by
        obtain rfl | rfl := hactive
        · exact nofun
        · exact fun heq => hid (Option.some.inj heq)
      have hu := hs.types u hu
      exact ⟨hu.status, fun hbusy _ => hu.busy hbusy hne, hu.done⟩
    · have hv := hextra x hx v hv
      exact ⟨hv.status, fun hbusy _ => hv.busy hbusy nofun, hv.done⟩
  case flat =>
    intro hgroupsFlat
    obtain ⟨hgroups, hfirst⟩ := hs.flat hgroupsFlat
    constructor
    · rintro v ⟨root', hroot', hgroup, c', hc', hv⟩ hfield'
      rw [types_update] at hroot'
      obtain ⟨root, hroot, rfl⟩ := List.mem_map.mp hroot'
      have hnodup := nodup_handles_of_mem hs.sound.handles hroot
      rw [isGroup, hc.keeps.updateAt_tag] at hgroup
      obtain ⟨c, hc, u, hu, rfl⟩ | ⟨x, hx, hv⟩ := hc.keeps.widens.nested_of_updateAt hnodup hc' hv
      · exact hgroups u ⟨root, hroot, hgroup, c, hc, hu⟩
          (hkept u ⟨root, hroot, .inner hc hu⟩ hfield')
      · exact hflat hgroupsFlat x hx v hv hfield'
    · intro v hv hfield'
      obtain ⟨u, hu, rfl⟩ | ⟨x, hx, hv⟩ := holds_of_update hc.keeps hs.sound.handles hv
      · rw [hc.keeps.widens.updateAt_id]
        exact hfirst u hu (hkept u hu hfield')
      · exact absurd hfield' (hflat hgroupsFlat x hx v hv)

end Change

end Store

end Schemata

-- ---------------------------------------------------------------------------
-- The type that is worked on
-- ---------------------------------------------------------------------------

namespace Schemata

open Compile SchemaType

variable {s₀ s s' : Store} {active : Option Handle} {t u : SchemaType} {h source : Handle}
  {fs : List Field} {n rounds : Nat} {process : Handle → Compile Unit}

/-- A reference that leads nowhere. -/
def Cause.Dangling (c : Cause) : Prop :=
  ∃ e, c = .compile e ∧ (e.rule = .missingReference ∨ e.rule = .innerNotFound)

theorem dangling_innerNotFound (t : SchemaType) (q : QName) : (innerNotFound t q).cause.Dangling :=
  ⟨_, rfl, .inr rfl⟩

theorem dangling_missing (s : Store) (q : QName) (t : SchemaType) (what : String) :
    (s.missing q t what).cause.Dangling :=
  ⟨_, rfl, .inl rfl⟩

/-- The discipline of the expansion, from the store `s₀` on, while it works on the type `active`. -/
def ungrouping (s₀ : Store) (active : Option Handle) : Discipline where
  busy := .ungrouping
  Inv := s₀.Ungrouping active
  Leads := Store.Progress .ungrouping .ungrouped active
  Allowed := Cause.Dangling
  sound hs := hs.sound
  closed hs := hs.closed
  refl := .refl active
  trans := .trans (by decide)
  grows hleads := hleads.grows
  quiet _ _ _ hs :=
    ⟨⟨⟨hs.sound.keys, hs.sound.handles, hs.sound.below, hs.sound.byName, hs.sound.byHandle⟩,
      hs.closed, hs.outline, hs.types, hs.flat⟩, rfl, (Store.Progress.refl active _).types⟩

/-- The type is worked on and has these fields. -/
def Working (h : Handle) (fs : List Field) (s : Store) : Prop :=
  ∃ t, s.Holds t ∧ t.id = h ∧ t.status = .ungrouping ∧ t.fields = fs

/-- The root is a group that is begun. -/
def GroupBegun (source : Handle) (s : Store) : Prop :=
  ∃ t ∈ s.types, t.id = source ∧ t.isGroup = true ∧ ¬ t.status < .ungrouping

theorem Working.later (hw : Working h fs s)
    (hleads : Store.Progress .ungrouping .ungrouped none s s') : Working h fs s' := by
  obtain ⟨t, ht, rfl, hstatus, rfl⟩ := hw
  have hbegun : ¬ t.status < .ungrouping := by
    rw [hstatus]
    decide
  obtain ⟨t', ht', hid, hstatus', hfields, -⟩ := hleads.begun (by decide) ht hbegun nofun
  exact ⟨t', ht', hid, hstatus'.trans hstatus, hfields⟩

theorem Working.typeOf_bind {α : Type} {D : Discipline} {f : SchemaType → Compile α}
    {Q : α → Store → Prop} (hw : Working h fs s) (hs : D.Inv s)
    (hf : ∀ t, t.fields = fs → D.conduct.Runs (f t) s Q) : D.conduct.Runs (typeOf h >>= f) s Q := by
  obtain ⟨t, ht, rfl, -, hfields⟩ := hw
  exact Discipline.typeOf_bind hs ht (hf t hfields)

theorem GroupBegun.later (hsource : GroupBegun source s) (hs' : s'.Sound)
    (hleads : Store.Progress .ungrouping .ungrouped active s s') (hne : some source ≠ active) : GroupBegun source s' := by
  obtain ⟨t, ht, rfl, hgroup, hbegun⟩ := hsource
  obtain ⟨e, he, rfl⟩ := List.mem_map.mp ht
  obtain ⟨e', he', houtline⟩ := hleads.grows.exists_root he
  have hid : e'.type.id = e.type.id := congrArg (·.2.1) houtline
  have htag : e'.type.tag = e.type.tag := congrArg (·.2.2.2) houtline
  have hmem : e'.type ∈ s'.types := List.mem_map_of_mem he'
  refine ⟨e'.type, hmem, hid, by rwa [isGroup, htag], ?_⟩
  obtain ⟨u, hu, hid', hstatus, -⟩ :=
    hleads.begun (by decide) (Store.holds_of_mem_types ht) hbegun hne
  obtain rfl := hu.eq_of_id hs'.handles (Store.holds_of_mem_types hmem) (hid'.trans hid.symm)
  rwa [hstatus]

-- ---------------------------------------------------------------------------
-- Copies
-- ---------------------------------------------------------------------------

/-- A copy is as far as what it is a copy of. -/
theorem ungrouping_clone (hs : s₀.Ungrouping none s) {v w : SchemaType} (hv : s.Holds v)
    {next : Handle} (hw : Within w (v.clone next).1) : w.Ungrouping none := by
  obtain ⟨u, hu, hstatus, hfields⟩ := within_clone hw
  have hu := hs.types u (hv.within hu)
  refine ⟨hstatus ▸ hu.status, fun hbusy _ => ?_, fun hdone hfield => ?_⟩
  · exact hfields.mpr (hu.busy (hstatus ▸ hbusy) nofun)
  · exact hu.done (hstatus ▸ hdone) (hfields.mp hfield)

/-- The type that is worked on may have any fields. -/
theorem ungrouping_busy (hid : t.id = h) (hstatus : t.status = .ungrouping) :
    t.Ungrouping (some h) := by
  refine ⟨.inr (.inl hstatus), fun _ hne => absurd (congrArg some hid) hne, fun hdone => ?_⟩
  rw [hstatus] at hdone
  cases hdone

theorem runs_borrow (hfs : ∃ f ∈ fs, f.isGroup = true) (hne : source ≠ h)
    (hs : s₀.Ungrouping (some h) s) (hw : Working h fs s) (hsource : GroupBegun source s)
    (q : QName) :
    (ungrouping s₀ (some h)).conduct.Runs (borrow (.processing .ungrouping rounds process) source h q) s
      fun _ s' => Working h fs s' ∧ GroupBegun source s' := by
  obtain ⟨t, ht, rfl, hstatus, rfl⟩ := id hw
  obtain ⟨src, hroot, rfl, hgroup, hbegun⟩ := id hsource
  have hnone : s₀.Ungrouping none s := hs.none_of_hasGroupField ht hfs
  have hlt : ¬ t.status < .ungrouping := by
    rw [hstatus]
    decide
  have hsrc := Store.holds_of_mem_types hroot
  refine Discipline.runs_borrow (D := ungrouping s₀ (some t.id)) hs ht hsrc hbegun q
    (dangling_innerNotFound src q) ⟨hw, hsource⟩ fun c hc v hv hpending => ?_
  have hchange := Store.Change.copy s hpending
  have hs' := hchange.ungrouping hs (.inr rfl) ht (hs.closed.inner_pending ht hlt)
    (ungrouping_busy rfl hstatus) id
    (fun x hx w hw => by
      rw [List.mem_singleton.mp hx] at hw
      exact ungrouping_clone hnone (hsrc.within (.inner hc hv)) hw)
    (fun hflat x hx w hw => by
      rw [List.mem_singleton.mp hx] at hw
      obtain ⟨u, hu, -, hfields⟩ := within_clone hw
      rw [hfields]
      exact (hs.flat hflat).1 u ⟨src, hroot, hgroup, c, hc, hu.trans hv⟩)
  have hleads := hchange.progress .ungrouped hs.sound.handles t.id
  exact ⟨hs', hleads, ⟨_, hchange.holds hs.sound ht, rfl, hstatus, rfl⟩,
    hsource.later hs'.sound hleads fun heq => hne (Option.some.inj heq)⟩

theorem runs_borrowTypes (hfs : ∃ f ∈ fs, f.isGroup = true) (hne : source ≠ h)
    (hs : s₀.Ungrouping (some h) s) (hw : Working h fs s) (hsource : GroupBegun source s)
    (f : Field) :
    (ungrouping s₀ (some h)).conduct.Runs
      (borrowTypes (.processing .ungrouping rounds process) source h f) s
      fun _ s' => Working h fs s' ∧ GroupBegun source s' := by
  refine (Conduct.Runs.mapTypesM_of_forall (fun ft s hs hJ => ?_) f hs ⟨hw, hsource⟩).mono
    fun _ _ _ _ hf => hf.1
  unfold borrowType
  split
  · refine .bind (runs_borrow hfs hne hs hJ.1 hJ.2 ft.qname) fun _ s' hs' _ hJ' => ?_
    exact .pure hs' hJ'
  · exact .pure hs hJ

theorem runs_copyMembers (hfs : ∃ f ∈ fs, f.isGroup = true) (hne : source ≠ h)
    (hs : s₀.Ungrouping (some h) s) (hw : Working h fs s) (hsource : GroupBegun source s)
    (ref : Field) (way : List PathEntry) (positions : List Nat) :
    (ungrouping s₀ (some h)).conduct.Runs
      (copyMembers (.processing .ungrouping rounds process) source h ref way positions) s
      fun _ s' => Working h fs s' := by
  induction positions generalizing s with
  | nil => exact .pure hs hw
  | cons i rest ih =>
    obtain ⟨t, ht, rfl, -⟩ := id hw
    obtain ⟨src, hroot, rfl, -⟩ := id hsource
    rw [copyMembers]
    refine Discipline.fieldOf_bind hs (Store.holds_of_mem_types hroot) ?_
    refine Discipline.typeOf_bind hs ht ?_
    split
    · exact ih hs hw hsource
    · refine .bind (runs_borrowTypes hfs hne hs hw hsource _) fun _ s' hs' _ hJ => ?_
      refine .bind (ih hs' hJ.1 hJ.2) fun _ s'' hs'' _ hw'' => ?_
      exact .pure hs'' hw''

-- ---------------------------------------------------------------------------
-- References
-- ---------------------------------------------------------------------------

theorem splice_append {α : Type} (pre copies post : List α) (x : α) :
    splice pre.length copies (pre ++ x :: post) = pre ++ copies ++ post := by
  simp [splice]

theorem runs_splice {pre post : List Field} {ref : Field} (href : ref.isGroup = true)
    (hs : s₀.Ungrouping (some h) s) (hw : Working h (pre ++ ref :: post) s) (copies : List Field) :
    (ungrouping s₀ (some h)).conduct.Runs
      (update h fun t => { t with fields := splice pre.length copies t.fields }) s
      fun _ s' => Working h (pre ++ copies ++ post) s' := by
  obtain ⟨t, ht, rfl, hstatus, hfields⟩ := hw
  have hlt : ¬ t.status < .ungrouping := by
    rw [hstatus]
    decide
  have hchange : s.Change .ungrouping (fun t => { t with fields := splice pre.length copies t.fields })
      [] s.nextHandle :=
    .plain s ⟨fun _ => rfl, fun _ => rfl, fun _ => rfl, fun t => (List.append_nil t.inner).symm⟩
      fun _ hlt => hlt
  refine .update (hchange.ungrouping hs (.inr rfl) ht (hs.closed.inner_pending ht hlt)
    (ungrouping_busy rfl hstatus) (fun _ => ?_) (fun x hx => absurd hx List.not_mem_nil)
    fun _ x hx => absurd hx List.not_mem_nil) (hchange.progress _ hs.sound.handles t.id)
    ⟨_, hchange.holds hs.sound ht, rfl, hstatus, ?_⟩
  · exact ⟨ref, hfields ▸ List.mem_append_right _ List.mem_cons_self, href⟩
  · simp only [hfields]
    exact splice_append pre copies post ref

theorem runs_groupPath (hs : s₀.Ungrouping active s) (ref : Field) :
    (ungrouping s₀ active).conduct.Runs (groupPath ref) s fun _ s' => ∃ memory, s' = { s with memory } := by
  unfold groupPath
  split
  · refine .bind (Discipline.runs_quiet hs rfl trivial) fun _ s' hs' _ heq => .get_bind (.pure hs' ?_)
    exact ⟨_, heq⟩
  · exact .pure hs ⟨s.memory, rfl⟩

/-- Names of different roots, each of which is expanded in the one before it. -/
structure Lineage (s₀ : Store) (lineage : List QName) : Prop where
  nodup : lineage.Nodup
  names : lineage ⊆ s₀.types.map (·.qname)

theorem Lineage.length_le {lineage : List QName} (hl : Lineage s₀ lineage) :
    lineage.length ≤ s₀.roots.length := by
  have hle := (List.subperm_of_subset hl.nodup hl.names).length_le
  rwa [List.length_map, Store.types, List.length_map] at hle

theorem mem_names_of_mem_types (hs : s₀.Ungrouping active s) (ht : t ∈ s.types) :
    t.qname ∈ s₀.types.map (·.qname) := by
  have hnames : s.types.map (·.qname) = s₀.types.map (·.qname) := by
    have heq := congrArg (List.map (·.2.2.1)) hs.outline
    rw [List.map_map, List.map_map] at heq
    rw [Store.types, Store.types, List.map_map, List.map_map]
    exact heq
  exact hnames ▸ List.mem_map_of_mem ht

theorem runs_find (hprocess : (ungrouping s₀ none).Processes n process) {ref : Field}
    (href : ref.isGroup = true) (hfs : ∃ f ∈ fs, f.isGroup = true)
    (hs : s₀.Ungrouping (some h) s) (hw : Working h fs s)
    (hn : (s.pending .ungrouping).length < n) (q : QName) :
    (ungrouping s₀ (some h)).conduct.Runs
      ((Finder.processing .ungrouping (rounds + 2) process).find q fun t => t.tag == ref.tag) s
      fun r s' => Working h fs s' ∧ ∀ source, r = some source →
        GroupBegun source s' ∧ q ∈ s₀.types.map (·.qname) := by
  obtain ⟨t, ht, rfl, -, hfields⟩ := id hw
  have hnone := hs.none_of_hasGroupField ht (by unfold HasGroupField; rwa [hfields])
  have hfind :=
    hprocess.findProcessed hnone hn (p := fun t => t.tag == ref.tag) (fun _ => rfl) q rounds
  -- a look-up leaves the type that is worked on alone
  refine .mono (hfind.under id fun _ hs' hleads => ⟨hs'.of_none _, hleads.of_none _⟩) ?_
  rintro r s' hs' - ⟨hfound, hleads⟩
  refine ⟨hw.later hleads, fun source hsource => ?_⟩
  subst hsource
  obtain ⟨src, hroot, rfl, rfl, htag, hbegun⟩ := hfound
  refine ⟨⟨src, hroot, rfl, ?_, hbegun⟩, mem_names_of_mem_types hs' hroot⟩
  rw [isGroup, beq_iff_eq.mp htag]
  exact href

theorem runs_expandAt (hprocess : (ungrouping s₀ none).Processes n process)
    {pre post : List Field} {ref : Field} (href : ref.isGroup = true) {lineage : List QName}
    (hlineage : Lineage s₀ lineage) (hs : s₀.Ungrouping (some h) s)
    (hw : Working h (pre ++ ref :: post) s) (hn : (s.pending .ungrouping).length < n) :
    (ungrouping s₀ (some h)).conduct.Runs
      (expandAt (.processing .ungrouping (rounds + 2) process) h pre.length lineage) s
      fun r s' => ∃ copies, Working h (pre ++ copies ++ post) s' ∧ copies.length = r.1 ∧
        (r.1 = 0 ∨ Lineage s₀ r.2 ∧ r.2.length = lineage.length + 1) := by
  have hfs : ∃ f ∈ pre ++ ref :: post, f.isGroup = true :=
    ⟨ref, List.mem_append_right _ List.mem_cons_self, href⟩
  have hdrop : ∀ {s}, s₀.Ungrouping (some h) s → Working h (pre ++ ref :: post) s →
      (ungrouping s₀ (some h)).conduct.Runs (do
        update h fun t => { t with fields := splice pre.length [] t.fields }
        pure (0, [])) s fun r s' => ∃ copies, Working h (pre ++ copies ++ post) s' ∧
          copies.length = r.1 ∧ (r.1 = 0 ∨ Lineage s₀ r.2 ∧ r.2.length = lineage.length + 1) := by
    intro s hs hw
    refine .bind (runs_splice href hs hw []) fun _ s' hs' _ hw' => ?_
    exact .pure hs' ⟨[], hw', rfl, .inl rfl⟩
  obtain ⟨t, ht, rfl, -, hfields⟩ := id hw
  have href' : t.fields[pre.length]?.getD {} = ref := by simp [hfields]
  unfold expandAt
  refine Discipline.fieldOf_bind hs ht ?_
  rw [href']
  cases ref.types with
  | nil => exact hdrop hs hw
  | cons ft fts =>
    refine .bind (runs_find hprocess href hfs hs hw hn ft.qname) fun r s' hs' _ hr => ?_
    obtain ⟨hw', hfound⟩ := hr
    cases r with
    | none =>
      refine .get_bind (hw'.typeOf_bind hs' fun t' _ => ?_)
      exact .throw ⟨dangling_missing _ _ _ _, List.Subset.refl _⟩
    | some source =>
      obtain ⟨hsource, hname⟩ := hfound source rfl
      dsimp only
      split
      case isTrue => exact hdrop hs' hw'
      case isFalse hnew =>
        rw [not_or] at hnew
        refine .bind (runs_groupPath hs' ref) fun way s'' hs'' _ hquiet => ?_
        obtain ⟨memory, rfl⟩ := hquiet
        obtain ⟨src, hroot, rfl, -⟩ := id hsource
        refine Discipline.typeOf_bind hs'' (Store.holds_of_mem_types hroot) ?_
        refine .bind (runs_copyMembers hfs hnew.1 hs'' hw' hsource ref way _)
          fun copies s₁ hs₁ _ hw₁ => ?_
        refine .bind (runs_splice href hs₁ hw₁ copies) fun _ s₂ hs₂ _ hw₂ => ?_
        refine .pure hs₂ ⟨copies, hw₂, rfl, .inr ⟨⟨?_, ?_⟩, rfl⟩⟩
        · exact List.nodup_cons.mpr ⟨hnew.2, hlineage.nodup⟩
        · exact List.cons_subset.mpr ⟨hname, hlineage.names⟩

/-- The fields in the middle are expanded: others have taken their place, none of which refers to a
group. Gives the position after them. -/
def Expanded (h : Handle) (pre post : List Field) (next : Nat) (s : Store) : Prop :=
  ∃ mid, Working h (pre ++ mid ++ post) s ∧ (∀ f ∈ mid, f.isGroup = false) ∧
    next = pre.length + mid.length

theorem runs_expandSpan (hprocess : (ungrouping s₀ none).Processes n process)
    {expand : List QName → Nat → Nat → Compile Nat} {lineage : List QName}
    (hexpand : ∀ {s pre mid post origin}, mid = [] ∨ Lineage s₀ origin ∧
        origin.length = lineage.length + 1 → s₀.Ungrouping (some h) s →
      Working h (pre ++ mid ++ post) s → (s.pending .ungrouping).length < n →
      (ungrouping s₀ (some h)).conduct.Runs (expand origin mid.length pre.length) s (Expanded h pre post))
    (hlineage : Lineage s₀ lineage) {pre mid post : List Field} (hs : s₀.Ungrouping (some h) s)
    (hw : Working h (pre ++ mid ++ post) s) (hn : (s.pending .ungrouping).length < n) :
    (ungrouping s₀ (some h)).conduct.Runs
      (expandSpan (.processing .ungrouping (rounds + 2) process) h expand lineage mid.length
        pre.length) s (Expanded h pre post) := by
  induction mid generalizing s pre with
  | nil => exact .pure hs ⟨[], hw, fun f hf => absurd hf List.not_mem_nil, rfl⟩
  | cons f mid ih =>
    -- the fields after those that have taken the place of the first one
    have hrest : ∀ {s done}, s₀.Ungrouping (some h) s → Working h (pre ++ done ++ (mid ++ post)) s →
        (∀ f ∈ done, f.isGroup = false) → (s.pending .ungrouping).length < n →
        (ungrouping s₀ (some h)).conduct.Runs
          (expandSpan (.processing .ungrouping (rounds + 2) process) h expand lineage mid.length
            (pre.length + done.length)) s (Expanded h pre post) := by
      intro s done hs hw hdone hn
      rw [← List.length_append]
      refine (ih hs (by rwa [List.append_assoc (pre ++ done)]) hn).mono ?_
      rintro next s' - - ⟨mid', hw', hmid', rfl⟩
      refine ⟨done ++ mid', by rwa [← List.append_assoc], fun f hf => ?_, ?_⟩
      · exact (List.mem_append.mp hf).elim (hdone f) (hmid' f)
      · simp only [List.length_append]
        omega
    obtain ⟨t, ht, rfl, -, hfields⟩ := id hw
    have hf : t.fields[pre.length]?.getD {} = f := by simp [hfields]
    rw [List.length_cons, expandSpan]
    refine Discipline.fieldOf_bind hs ht ?_
    rw [hf]
    split
    case isTrue hgroup =>
      have hw : Working t.id (pre ++ f :: (mid ++ post)) s := by simpa using hw
      refine .bind (runs_expandAt hprocess hgroup hlineage hs hw hn) fun r s' hs' hleads hr => ?_
      obtain ⟨copies, hw', hlength, horigin⟩ := hr
      have hn' := (ungrouping s₀ (some t.id)).length_pending_lt hs' hleads hn
      obtain ⟨added, origin⟩ := r
      obtain rfl : copies.length = added := hlength
      have horigin := horigin.imp_left List.eq_nil_of_length_eq_zero
      refine .bind (hexpand horigin hs' hw' hn') fun next s'' hs'' hleads'' hnext => ?_
      obtain ⟨done, hw'', hdone, rfl⟩ := hnext
      exact hrest hs'' hw'' hdone ((ungrouping s₀ (some t.id)).length_pending_lt hs'' hleads'' hn')
    case isFalse hgroup =>
      have hw : Working t.id (pre ++ [f] ++ (mid ++ post)) s := by simpa using hw
      refine hrest hs hw (fun g hg => ?_) hn
      rw [List.mem_singleton.mp hg]
      exact Bool.not_eq_true _ ▸ hgroup

/-- No group comes twice in a lineage, so the lineages of fields are no longer than there are
roots. -/
theorem runs_expandWithin (hprocess : (ungrouping s₀ none).Processes n process) {depth : Nat}
    {lineage : List QName} {pre mid post : List Field}
    (hlineage : mid = [] ∨ Lineage s₀ lineage ∧ s₀.roots.length + 1 < depth + lineage.length)
    (hdepth : 0 < depth) (hs : s₀.Ungrouping (some h) s) (hw : Working h (pre ++ mid ++ post) s)
    (hn : (s.pending .ungrouping).length < n) :
    (ungrouping s₀ (some h)).conduct.Runs
      (expandWithin (.processing .ungrouping (rounds + 2) process) h depth lineage mid.length
        pre.length) s (Expanded h pre post) := by
  induction depth generalizing s lineage pre mid post with
  | zero => exact absurd hdepth (Nat.lt_irrefl 0)
  | succ depth ih =>
    rw [expandWithin]
    obtain rfl | ⟨hlineage, hlong⟩ := hlineage
    · exact .pure hs ⟨[], hw, fun f hf => absurd hf List.not_mem_nil, rfl⟩
    · refine runs_expandSpan hprocess (fun horigin hs hw hn => ih ?_ ?_ hs hw hn) hlineage hs hw hn
      · refine horigin.imp_right fun ⟨horigin, hlength⟩ => ⟨horigin, ?_⟩
        omega
      · have hle := hlineage.length_le
        omega

theorem runs_expandGroups (hprocess : (ungrouping s₀ none).Processes n process)
    (hrounds : s₀.roots.length ≤ rounds) (hs : s₀.Ungrouping (some h) s) (hw : Working h fs s)
    (hn : (s.pending .ungrouping).length < n) :
    (ungrouping s₀ (some h)).conduct.Runs
      (expandGroups (rounds + 2) (.processing .ungrouping (rounds + 2) process) h) s
      fun _ s' => ∃ fs, Working h fs s' ∧ ∀ f ∈ fs, f.isGroup = false := by
  unfold expandGroups
  refine hw.typeOf_bind hs fun t hfields => ?_
  rw [hfields]
  have hlineage : Lineage s₀ [] := ⟨List.nodup_nil, List.nil_subset _⟩
  have hw : Working h ([] ++ fs ++ []) s := by simpa using hw
  refine .bind (runs_expandWithin hprocess (.inr ⟨hlineage, ?_⟩) (Nat.succ_pos _) hs hw hn)
    fun next s' hs' _ hend => ?_
  · simp only [List.length_nil]
    omega
  · obtain ⟨mid, hw', hmid, -⟩ := hend
    exact .pure hs' ⟨mid, by simpa using hw', hmid⟩

-- ---------------------------------------------------------------------------
-- The step
-- ---------------------------------------------------------------------------

theorem applies_ungroup (hprocess : (ungrouping s₀ none).Processes n process)
    (hrounds : s₀.roots.length ≤ rounds) :
    (ungrouping s₀ none).Applies n
      (Step.ungroup.apply (rounds + 2) (.processing .ungrouping (rounds + 2) process)) := by
  intro s u hs hu hlt hinner hn
  have hnothing : ∀ x ∈ ([] : List SchemaType), ∀ v, Within v x → v.Ungrouping none :=
    fun x hx => absurd hx List.not_mem_nil
  have hflat : s₀.GroupsFlat → ∀ x ∈ ([] : List SchemaType), ∀ v, Within v x → ¬ v.HasGroupField :=
    fun _ x hx => absurd hx List.not_mem_nil
  have hbusy : ¬ Status.ungrouping < .ungrouping := by decide
  have hdone : ¬ Status.ungrouped < .ungrouping := by decide
  -- the type is begun
  have hbegin := Store.Change.setStatus s hbusy
  have hs₁ := hbegin.ungrouping hs (.inl rfl) hu (List.flatMap_eq_nil_iff.mpr hinner)
    (ungrouping_busy (h := u.id) rfl rfl) id hnothing hflat
  have hleads₁ := hbegin.progress .ungrouped hs.sound.handles u.id
  have hu₁ := hbegin.holds hs.sound hu
  have hn₁ := hleads₁.length_pending_lt hs₁.sound.handles
    ((hu.mem_pending_iff hs.sound.handles).mpr hlt)
    (mt (hu₁.mem_pending_iff hs₁.sound.handles).mp hbusy)
  have hgroups := runs_expandGroups hprocess hrounds hs₁ ⟨_, hu₁, rfl, rfl, rfl⟩
    (Nat.lt_of_lt_of_le hn₁ hn)
  unfold Conduct.Runs Step.apply
  rw [wp_bind, wp_update, wp_bind]
  refine wp_mono (Discipline.runs_runPasses (Store.mem_handles_iff.mpr ⟨_, hu₁, rfl⟩) hgroups) ?_ ?_
  · -- no reference is left, and it is done
    rintro _ s₂ ⟨hs₂, hleads₂, fs, ⟨t, ht, hid, hstatus, rfl⟩, hfields⟩
    have hplain : ¬ t.HasGroupField := by
      rintro ⟨f, hf, hgroup⟩
      rw [hfields f hf] at hgroup
      cases hgroup
    have hend := Store.Change.setStatus s₂ hdone
    have htype₃ : SchemaType.Ungrouping none { t with status := .ungrouped } :=
      ⟨.inr (.inr rfl), nofun, fun _ => hplain⟩
    have hs₃ := hend.ungrouping hs₂ (.inr (congrArg some hid.symm)) ht
      (hs₂.closed.inner_pending ht (hstatus ▸ hbusy)) htype₃ id hnothing hflat
    have hleads₃ := (hleads₁.trans (by decide) hleads₂).trans (by decide)
      (hend.progress _ hs₂.sound.handles u.id)
    have ht₃ := hend.holds hs₂.sound ht
    have hnot : t.id ∉ Store.pending .ungrouping _ :=
      mt (ht₃.mem_pending_iff hs₃.sound.handles).mp hdone
    rw [hid] at hs₃ ht₃ hnot
    rw [wp_update]
    exact ⟨hs₃, hleads₃.finish hs.sound hs₃.sound hu (Status.lt_ungrouping_iff.mp hlt) ht₃ rfl rfl,
      hnot⟩
  · rintro f s₂ ⟨hallowed, hhandles⟩
    exact ⟨hallowed, List.Subset.trans hleads₁.grows.handles_subset hhandles⟩

theorem ungrouping_start (hs : s.Sound) (hraw : ∀ u, s.Holds u → u.status = .raw) :
    s.Ungrouping none s where
  sound := hs
  closed u hu hbegun := absurd (Status.lt_ungrouping_iff.mpr (hraw u hu)) hbegun
  outline := rfl
  types u hu := by
    have hu := hraw u hu
    refine ⟨.inl hu, fun hbusy => ?_, fun hdone => ?_⟩
    · rw [hu] at hbusy
      cases hbusy
    · rw [hu] at hdone
      cases hdone
  flat hflat := ⟨hflat, fun u hu _ => Store.mem_handles_iff.mpr ⟨u, hu, rfl⟩⟩

/-- The expansion of groups comes to its end, whatever refers to what, and fails for references only
that lead nowhere. -/
theorem runs_ungroup (hs : s.Sound) (hraw : ∀ u, s.Holds u → u.status = .raw) :
    (ungrouping s none).conduct.Runs (Step.ungroup.run false) s
      fun _ s' => s'.pending .ungrouping = [] := by
  refine Discipline.run rfl rfl rfl (ungrouping_start hs hraw) fun rounds hrounds _ _ _ hprocess => ?_
  exact applies_ungroup hprocess (Nat.le_trans s.length_roots_le_weight hrounds)

/-- What the expansion of groups leaves behind. Groups may refer to each other and to themselves, also
through types that are nested in them. The step comes to an end, and fails only for a reference that
leads nowhere. Otherwise every type that was there is ungrouped, and a type has a reference to a group
left exactly when it is still ungrouping: it is a copy of a type that was being worked on. When no
type that is nested in a group refers to a group, nothing is left. -/
theorem ungroup_leaves_groups_iff (hs : s.Sound) (hraw : ∀ u, s.Holds u → u.status = .raw) :
    wp (Step.ungroup.run false)
      (fun _ s' =>
        (∀ u, s.Holds u → ∃ u', s'.Holds u' ∧ u'.id = u.id ∧ u'.status = .ungrouped) ∧
        (∀ u, s'.Holds u → u.status = .ungrouping ∨ u.status = .ungrouped) ∧
        (∀ u, s'.Holds u → (u.HasGroupField ↔ u.status = .ungrouping)) ∧
        (s.GroupsFlat → ∀ u, s'.Holds u → ¬ u.HasGroupField))
      (fun f _ => f.cause.Dangling) s := by
  refine wp_mono (runs_ungroup hs hraw) ?_ fun _ _ hfails => hfails.1
  rintro _ s' ⟨hs', hleads, hnil⟩
  have hbegun : ∀ u, s'.Holds u → ¬ u.status < .ungrouping := by
    intro u hu
    rw [← hu.mem_pending_iff hs'.sound.handles, hnil]
    exact List.not_mem_nil
  have hstatus : ∀ u, s'.Holds u → u.status = .ungrouping ∨ u.status = .ungrouped := by
    intro u hu
    exact (hs'.types u hu).status.resolve_left fun hraw =>
      hbegun u hu (Status.lt_ungrouping_iff.mpr hraw)
  have hkept : ∀ u, s.Holds u → ∃ u', s'.Holds u' ∧ u'.id = u.id ∧ u'.status = .ungrouped := by
    intro u hu
    obtain ⟨u', hu', hid, -, hadvances⟩ := hleads.types u hu
    obtain ⟨hsame, -⟩ | ⟨-, hdone⟩ := hadvances nofun
    · exact absurd (Status.lt_ungrouping_iff.mpr (hsame.trans (hraw u hu))) (hbegun u' hu')
    · exact ⟨u', hu', hid, hdone⟩
  have hiff : ∀ u, s'.Holds u → (u.HasGroupField ↔ u.status = .ungrouping) := by
    intro u hu
    refine ⟨fun hfield => (hstatus u hu).resolve_right fun hdone => ?_, fun hbusy => ?_⟩
    · exact (hs'.types u hu).done hdone hfield
    · exact (hs'.types u hu).busy hbusy nofun
  refine ⟨hkept, hstatus, hiff, fun hflat u hu hfield => ?_⟩
  -- only types that were there could have a reference left, and these are done
  obtain ⟨v, hv, hid⟩ := Store.mem_handles_iff.mp ((hs'.flat hflat).2 u hu hfield)
  obtain ⟨v', hv', hid', hdone⟩ := hkept v hv
  obtain rfl := hv'.eq_of_id hs'.sound.handles hu (hid'.trans hid)
  exact (hs'.types v' hu).done hdone hfield

namespace Nested

/-- A group with an inner type that refers to the group. -/
def group : SchemaType :=
  { qname := ⟨"urn:t", "G"⟩, tag := .group
    fields := [
      { tag := .element, name := "a", types := [{ qname := ⟨"urn:t", "I"⟩, forward := true }] }]
    inner := [
      { qname := ⟨"urn:t", "I"⟩, tag := .complexType
        fields := [{ tag := .group, name := "G", types := [{ qname := ⟨"urn:t", "G"⟩ }] }] }] }

/-- Not every reference is expanded: while the inner type is worked on, it gets a copy of itself, and
nothing works on the copy. -/
theorem ungroup_leaves_group :
    (({} : Store).insertAll [group]).Sound ∧
    (∀ u, (({} : Store).insertAll [group]).Holds u → u.status = .raw) ∧
    wp (Step.ungroup.run false) (fun _ s' => ∃ u, s'.Holds u ∧ u.HasGroupField) (fun _ _ => False)
      (({} : Store).insertAll [group]) := by
  refine ⟨Store.Sound.insertAll (.empty {}) (.empty {}) (by decide), ?_, ?_⟩
  · simp only [Store.holds_iff_mem_walkAll]
    decide +kernel
  · have hrun : wp (Step.ungroup.run false)
        (fun _ s' => ∃ u ∈ walkAll s'.types, ∃ f ∈ u.fields, f.isGroup = true) (fun _ _ => False)
        (({} : Store).insertAll [group]) := by
      decide +kernel
    refine wp_mono hrun ?_ fun _ _ hfalse => hfalse
    rintro _ s' ⟨u, hu, hfield⟩
    exact ⟨u, Store.holds_iff_mem_walkAll.mpr hu, hfield⟩

end Nested

namespace Mutual

/-- Refers to the other group, and has an inner type. -/
def first : SchemaType :=
  { qname := ⟨"urn:t", "G"⟩, tag := .group
    fields := [
      { tag := .element, name := "a", types := [{ qname := ⟨"urn:t", "I"⟩, forward := true }] },
      { tag := .group, name := "H", types := [{ qname := ⟨"urn:t", "H"⟩ }] }]
    inner := [
      { qname := ⟨"urn:t", "I"⟩, tag := .complexType
        fields := [{ tag := .element, name := "i" }] }] }

/-- Refers to the first group. -/
def second : SchemaType :=
  { qname := ⟨"urn:t", "H"⟩, tag := .group
    fields := [
      { tag := .group, name := "G", types := [{ qname := ⟨"urn:t", "G"⟩ }] },
      { tag := .element, name := "b" }] }

theorem ungroup_leaves_none :
    (({} : Store).insertAll [first, second]).Sound ∧
    (∀ u, (({} : Store).insertAll [first, second]).Holds u → u.status = .raw) ∧
    (({} : Store).insertAll [first, second]).GroupsFlat ∧
    wp (Step.ungroup.run false) (fun _ s' => ∀ u, s'.Holds u → ¬ u.HasGroupField)
      (fun f _ => f.cause.Dangling) (({} : Store).insertAll [first, second]) := by
  have hs : (({} : Store).insertAll [first, second]).Sound :=
    .insertAll (.empty {}) (.empty {}) (by decide)
  have hraw : ∀ u, (({} : Store).insertAll [first, second]).Holds u → u.status = .raw := by
    simp only [Store.holds_iff_mem_walkAll]
    decide +kernel
  have hflat : (({} : Store).insertAll [first, second]).GroupsFlat := by decide +kernel
  refine ⟨hs, hraw, hflat, ?_⟩
  refine wp_mono (ungroup_leaves_groups_iff hs hraw) ?_ fun _ _ hdangling => hdangling
  rintro _ s' ⟨-, -, -, hnone⟩
  exact hnone hflat

end Mutual

end Schemata
