import Schemata.Proofs.Step.WeakestPre
import Schemata.Proofs.Store.Sound

/-!
# Sequential steps

A sequential step works on what it looks up before it goes on. A `Discipline` says what such a step
keeps true and what it may make of a store: roots stay where they are, types may get new inner types
as long as these are begun. Working on a type leads to other types only while there are types that are
not begun, so the number of these bounds how deep look-ups lead, and two rounds are enough for a
look-up, for a tree and for the roots.
-/

namespace Schemata

open Compile SchemaType

variable {α β : Type} {busy : Status} {s s' s'' : Store} {t u : SchemaType} {e : Entry} {h : Handle}

namespace Store

/-- The handles of the types that are not begun. -/
def pending (busy : Status) (s : Store) : List Handle :=
  s.types.flatMap (SchemaType.pending busy)

theorem pending_eq (s : Store) :
    s.pending busy = ((walkAll s.types).filter (·.status < busy)).map (·.id) := by
  rw [walkAll_eq_flatMap, List.filter_flatMap, List.map_flatMap]
  rfl

theorem mem_pending_iff : h ∈ s.pending busy ↔ ∃ u, s.Holds u ∧ u.status < busy ∧ u.id = h := by
  simp only [pending_eq, List.mem_map, List.mem_filter, decide_eq_true_eq, holds_iff_mem_walkAll,
    and_assoc]

theorem Holds.pending_subset (hu : s.Holds u) : u.pending busy ⊆ s.pending busy := by
  intro h hh
  obtain ⟨v, hv, hlt, rfl⟩ := SchemaType.mem_pending_iff.mp hh
  exact mem_pending_iff.mpr ⟨v, hu.within hv, hlt, rfl⟩

theorem Holds.mem_pending_iff (hs : s.handles.Nodup) (hu : s.Holds u) :
    u.id ∈ s.pending busy ↔ u.status < busy := by
  rw [Store.mem_pending_iff]
  constructor
  · rintro ⟨v, hv, hlt, hid⟩
    rwa [← hv.eq_of_id hs hu hid]
  · exact fun hlt => ⟨u, hu, hlt, rfl⟩

theorem nodup_pending (hs : s.handles.Nodup) : (s.pending busy).Nodup := by
  rw [← map_id_walkAll] at hs
  rw [pending_eq]
  exact (List.filter_sublist.map _).nodup hs

/-- A root that is preferred has the name. -/
theorem Sound.preferred? {s : Store} (hs : s.Sound) {q : QName} {tag : Tag}
    (hfound : s.preferred? q tag = some t) : t ∈ s.types ∧ t.qname = q := by
  obtain ⟨p, -, hlookup⟩ := List.exists_of_findSome?_eq_some hfound
  obtain ⟨ht, hq, -⟩ := hs.of_lookup?_eq_some hlookup
  exact ⟨ht, hq⟩

/-- Types are begun after what is nested in them. -/
def Closed (busy : Status) (s : Store) : Prop :=
  ∀ u, s.Holds u → ¬ u.status < busy → u.pending busy = []

/-- The roots are the same, and every type is there and has no more to do in it. -/
structure Grows (busy : Status) (s s' : Store) : Prop where
  outline : s'.roots.map Entry.outline = s.roots.map Entry.outline
  types : ∀ u, s.Holds u → ∃ u', s'.Holds u' ∧ u'.id = u.id ∧ u'.pending busy ⊆ u.pending busy

namespace Grows

theorem trans (hgrows : s.Grows busy s') (hgrows' : s'.Grows busy s'') : s.Grows busy s'' := by
  refine ⟨hgrows'.outline.trans hgrows.outline, fun u hu => ?_⟩
  obtain ⟨u', hu', hid, hsub⟩ := hgrows.types u hu
  obtain ⟨u'', hu'', hid', hsub'⟩ := hgrows'.types u' hu'
  exact ⟨u'', hu'', hid'.trans hid, List.Subset.trans hsub' hsub⟩

theorem handles_subset (hgrows : s.Grows busy s') : s.handles ⊆ s'.handles := by
  intro h hh
  obtain ⟨u, hu, rfl⟩ := mem_handles_iff.mp hh
  obtain ⟨u', hu', hid, -⟩ := hgrows.types u hu
  exact mem_handles_iff.mpr ⟨u', hu', hid⟩

theorem exists_root (hgrows : s.Grows busy s') (he : e ∈ s.roots) :
    ∃ e' ∈ s'.roots, e'.outline = e.outline := by
  have hmem := List.mem_map_of_mem (f := Entry.outline) he
  rw [← hgrows.outline] at hmem
  exact List.mem_map.mp hmem

theorem pending_subset (hs' : s'.handles.Nodup) (hgrows : s.Grows busy s') :
    s'.pending busy ⊆ s.pending busy := by
  intro h hh
  obtain ⟨t', ht', hh⟩ := List.mem_flatMap.mp hh
  obtain ⟨e', he', rfl⟩ := List.mem_map.mp ht'
  -- the root that this one has been
  have hmem := List.mem_map_of_mem (f := Entry.outline) he'
  rw [hgrows.outline] at hmem
  obtain ⟨e, he, heq⟩ := List.mem_map.mp hmem
  have hid : e.type.id = e'.type.id := congrArg (·.2.1) heq
  have hheld : s.Holds e.type := holds_of_mem_types (List.mem_map_of_mem he)
  obtain ⟨u', hu', hid', hsub⟩ := hgrows.types e.type hheld
  rw [hu'.eq_of_id hs' (holds_of_mem_types ht') (hid'.trans hid)] at hsub
  exact hheld.pending_subset (hsub hh)

theorem length_pending_le (hs' : s'.handles.Nodup) (hgrows : s.Grows busy s') :
    (s'.pending busy).length ≤ (s.pending busy).length :=
  (List.subperm_of_subset (nodup_pending hs') (hgrows.pending_subset hs')).length_le

/-- A type that is begun leaves less to do. -/
theorem length_pending_lt (hs' : s'.handles.Nodup) (hgrows : s.Grows busy s')
    (hh : h ∈ s.pending busy) (hend : h ∉ s'.pending busy) :
    (s'.pending busy).length < (s.pending busy).length := by
  have hnodup : (h :: s'.pending busy).Nodup := List.nodup_cons.mpr ⟨hend, nodup_pending hs'⟩
  have hsub : h :: s'.pending busy ⊆ s.pending busy :=
    List.cons_subset.mpr ⟨hh, hgrows.pending_subset hs'⟩
  exact (List.subperm_of_subset hnodup hsub).length_le

end Grows

end Store

/-- The diagnostics among events. -/
def noted (journal : List Event) : List Diagnostic :=
  journal.filterMap fun
    | .noted d => some d
    | _ => none

theorem noted_append_swept (journal : List Event) (step : String) (number types : Nat) :
    noted (journal ++ [.swept step number types]) = noted journal :=
  (List.filterMap_append ..).trans (List.append_nil _)

/-- What a step keeps true of a store, what it may make of one and how it may fail. -/
structure Discipline where
  busy : Status
  Inv : Store → Prop
  Leads : Store → Store → Prop
  Allowed : Cause → Prop
  /-- What may be recorded without being of consequence. -/
  Silent : List Event → List Event → Prop := fun _ _ => True
  sound : ∀ {s}, Inv s → s.Sound
  closed : ∀ {s}, Inv s → s.Closed busy
  refl : ∀ s, Leads s s
  trans : ∀ {s s' s''}, Leads s s' → Leads s' s'' → Leads s s''
  grows : ∀ {s s'}, Leads s s' → s.Grows busy s'
  silent : ∀ {journal journal'}, noted journal' = noted journal → Silent journal journal' := by
    intros
    trivial
  quiet : ∀ {s} memory journal, Silent s.journal journal → Inv s →
    Inv { s with memory, journal } ∧ Leads s { s with memory, journal }

namespace Discipline

variable {D : Discipline} {x : Compile α} {f : α → Compile β} {Q : α → Store → Prop}
  {Q' : β → Store → Prop} {n : Nat} {apply process : Handle → Compile Unit}

/-- A failure leaves every type where it can be found. -/
def Fails (D : Discipline) (s : Store) (f : Failure) (s' : Store) : Prop :=
  D.Allowed f.cause ∧ s.handles ⊆ s'.handles

abbrev conduct (D : Discipline) : Conduct where
  Inv := D.Inv
  Leads := D.Leads
  Fails := D.Fails
  refl := D.refl
  trans := D.trans
  fails hleads hfails := ⟨hfails.1, List.Subset.trans (D.grows hleads).handles_subset hfails.2⟩

/-- What passes remember and what is recorded is no matter of discipline. -/
theorem runs_quiet {g : Store → Store} (hs : D.Inv s)
    (hg : g s = { s with memory := (g s).memory, journal := (g s).journal })
    (hsilent : D.Silent s.journal (g s).journal) :
    D.conduct.Runs (modify g) s fun _ s' => s' = g s := by
  have hquiet := D.quiet (g s).memory (g s).journal hsilent hs
  rw [← hg] at hquiet
  exact .modify hquiet.1 hquiet.2 rfl

theorem typeOf_bind {f : SchemaType → Compile β} (hs : D.Inv s) (hu : s.Holds u)
    (hf : D.conduct.Runs (f u) s Q') : D.conduct.Runs (typeOf u.id >>= f) s Q' :=
  .typeOf_bind_found (Store.get?_of_holds (D.sound hs).handles hu) hf

theorem fieldOf_bind {f : Field → Compile β} {i : Nat} (hs : D.Inv s) (hu : s.Holds u)
    (hf : D.conduct.Runs (f (u.fields[i]?.getD {})) s Q') : D.conduct.Runs (fieldOf u.id i >>= f) s Q' :=
  .fieldOf_bind_found (Store.get?_of_holds (D.sound hs).handles hu) hf

/-- A failure of a pass is passed on with its cause. -/
theorem runs_runPasses_cons {place : String} {rounds : Nat} {finder : Finder} {pass : Pass}
    {rest : List Pass} {Q Q' : Unit → Store → Prop} (hh : h ∈ s.handles)
    (hpass : D.conduct.Runs (pass.run rounds finder h) s Q)
    (hrest : ∀ s', D.Inv s' → D.Leads s s' → Q () s' →
      D.conduct.Runs (runPasses place rounds finder h rest) s' Q') :
    D.conduct.Runs (runPasses place rounds finder h (pass :: rest)) s Q' := by
  refine .runPasses_cons (fun hfails _ => hfails) (fun hfails hmissing => ?_) hpass hrest
  obtain ⟨t, ht⟩ := Store.exists_get? (hfails.2 hh)
  exact nomatch ht.symm.trans hmissing

theorem runs_runPasses {place : String} {rounds : Nat} {finder : Finder} {pass : Pass}
    {Q : Unit → Store → Prop} (hh : h ∈ s.handles) (hpass : D.conduct.Runs (pass.run rounds finder h) s Q) :
    D.conduct.Runs (runPasses place rounds finder h [pass]) s Q :=
  runs_runPasses_cons hh hpass fun _ hs' _ hQ => .pure hs' hQ

theorem pending_subset (hs' : D.Inv s') (hleads : D.Leads s s') :
    s'.pending D.busy ⊆ s.pending D.busy :=
  (D.grows hleads).pending_subset (D.sound hs').handles

theorem length_pending_le (hs' : D.Inv s') (hleads : D.Leads s s') :
    (s'.pending D.busy).length ≤ (s.pending D.busy).length :=
  (D.grows hleads).length_pending_le (D.sound hs').handles

theorem length_pending_lt (D : Discipline) (hs' : D.Inv s') (hleads : D.Leads s s')
    (hn : (s.pending D.busy).length < n) : (s'.pending D.busy).length < n :=
  Nat.lt_of_le_of_lt (length_pending_le hs' hleads) hn

/-- Working on a type whose inner types are begun, with at most `n` types to do. -/
def Applies (D : Discipline) (n : Nat) (apply : Handle → Compile Unit) : Prop :=
  ∀ ⦃s u⦄, D.Inv s → s.Holds u → u.status < D.busy → (∀ c ∈ u.inner, c.pending D.busy = []) →
    (s.pending D.busy).length ≤ n → D.conduct.Runs (apply u.id) s fun _ s' => u.id ∉ s'.pending D.busy

/-- Working on a type and on what is nested in it, with less than `n` types to do. -/
def Processes (D : Discipline) (n : Nat) (process : Handle → Compile Unit) : Prop :=
  ∀ ⦃s u⦄, D.Inv s → s.Holds u → (s.pending D.busy).length < n →
    D.conduct.Runs (process u.id) s fun _ s' => u.id ∉ s'.pending D.busy

-- ---------------------------------------------------------------------------
-- Look-up
-- ---------------------------------------------------------------------------

/-- What a look-up comes to: the handle of what there is to be found, which is begun. -/
inductive Finds (busy : Status) : Option SchemaType → Option Handle → Prop
  | none : Finds busy none none
  | some {t : SchemaType} (hbegun : ¬ t.status < busy) : Finds busy (some t) (some t.id)

theorem Processes.lookup (hprocess : D.Processes n process) (hs : D.Inv s)
    (hn : (s.pending D.busy).length < n) {p : SchemaType → Bool}
    (hp : ∀ t, p t = p { id := t.id, tag := t.tag })
    (q : QName) (rounds : Nat) :
    D.conduct.Runs (findProcessed D.busy process q p (rounds + 2)) s
      fun r s' => Finds D.busy (s'.lookup? q p) r := by
  have hroot : ∀ {s t}, D.Inv s → s.lookup? q p = some t → s.Holds t := fun hs hlookup =>
    Store.holds_of_mem_types ((D.sound hs).of_lookup?_eq_some hlookup).1
  have hstop : ∀ {s t} n, D.Inv s → s.lookup? q p = some t → ¬ t.status < D.busy →
      D.conduct.Runs (findProcessed D.busy process q p (n + 1)) s
        fun r s' => Finds D.busy (s'.lookup? q p) r := by
    intro s t n hs hlookup hbegun
    rw [Schemata.findProcessed]
    refine .get_bind ?_
    simp only [hlookup, if_neg hbegun]
    exact .pure hs (hlookup ▸ .some hbegun)
  cases hlookup : s.lookup? q p with
  | none =>
    rw [Schemata.findProcessed]
    refine .get_bind ?_
    simp only [hlookup]
    exact .pure hs (hlookup ▸ .none)
  | some t =>
    by_cases hlt : t.status < D.busy
    · rw [Schemata.findProcessed]
      refine .get_bind ?_
      simp only [hlookup, if_pos hlt]
      refine .bind (hprocess hs (hroot hs hlookup) hn) fun _ s' hs' hleads hdone => ?_
      -- the second look-up finds the root that the first one has found
      have hid := (D.sound hs).lookup?_id (D.sound hs') (D.grows hleads).outline hp q
      rw [hlookup, Option.map_some, Option.map_eq_some_iff] at hid
      obtain ⟨t', hlookup', hid⟩ := hid
      rw [← hid, (hroot hs' hlookup').mem_pending_iff (D.sound hs').handles] at hdone
      exact hstop rounds hs' hlookup' hdone
    · exact hstop (rounds + 1) hs hlookup hlt

/-- What a construct prefers is found. -/
theorem Processes.prefer (hprocess : D.Processes n process) (hs : D.Inv s)
    (hn : (s.pending D.busy).length < n) (q : QName) (tag : Tag) (rounds : Nat) :
    D.conduct.Runs ((Finder.processing D.busy (rounds + 2) process).findPreferred q tag) s
      fun r s' => Finds D.busy (s'.preferred? q tag) r := by
  have hgo : ∀ (ps : List (SchemaType → Bool)) {s}, D.Inv s → (s.pending D.busy).length < n →
      (∀ p ∈ ps, ∀ t, p t = p { id := t.id, tag := t.tag }) →
      D.conduct.Runs (Finder.findPreferred.go (.processing D.busy (rounds + 2) process) q ps) s
        fun r s' => Finds D.busy (ps.findSome? (s'.lookup? q)) r := by
    intro ps
    induction ps with
    | nil => exact fun hs _ _ => .pure hs .none
    | cons p ps ih =>
      intro s hs hn hps
      obtain ⟨hp, hps⟩ := List.forall_mem_cons.mp hps
      refine .bind (hprocess.lookup hs hn hp q rounds) fun r s' hs' hleads hr => ?_
      generalize hlookup : s'.lookup? q p = found at hr
      cases hr with
      | some hbegun =>
        refine .pure hs' ?_
        rw [List.findSome?_cons, hlookup]
        exact .some hbegun
      | none =>
        have hn' := D.length_pending_lt hs' hleads hn
        refine (ih hs' hn' hps).mono fun r s'' hs'' hleads' hr => ?_
        -- there is nothing to be found by the first condition later either
        have hid := (D.sound hs').lookup?_id (D.sound hs'') (D.grows hleads').outline hp q
        rw [hlookup, Option.map_none, Option.map_eq_none_iff] at hid
        rw [List.findSome?_cons, hid]
        exact hr
  exact hgo (preferences tag) hs hn (by simp [preferences, isComplex])

/-- What a look-up by name comes to: a root that is begun, or there is none that satisfies the
condition. -/
def Found (busy : Status) (q : QName) (p : SchemaType → Bool) (r : Option Handle) (s : Store) :
    Prop :=
  match r with
  | some h => ∃ t ∈ s.types, t.id = h ∧ t.qname = q ∧ p t = true ∧ ¬ t.status < busy
  | none => ∀ t ∈ s.types, t.qname = q → p t = false

theorem Processes.findProcessed (hprocess : D.Processes n process) (hs : D.Inv s)
    (hn : (s.pending D.busy).length < n) {p : SchemaType → Bool}
    (hp : ∀ t, p t = p { id := t.id, tag := t.tag })
    (q : QName) (rounds : Nat) :
    D.conduct.Runs (findProcessed D.busy process q p (rounds + 2)) s (Found D.busy q p) := by
  refine (hprocess.lookup hs hn hp q rounds).mono ?_
  intro r s' hs' _ hr
  generalize hlookup : s'.lookup? q p = found at hr
  cases hr with
  | none => exact fun t => (D.sound hs').of_lookup?_eq_none hlookup
  | @some t hbegun =>
    obtain ⟨ht, hq, hpt⟩ := (D.sound hs').of_lookup?_eq_some hlookup
    exact ⟨t, ht, rfl, hq, hpt, hbegun⟩

/-- Whatever a construct prefers, a root of the name is found if there is one. -/
theorem Processes.findPreferred (hprocess : D.Processes n process) (hs : D.Inv s)
    (hn : (s.pending D.busy).length < n) (q : QName) (tag : Tag) (rounds : Nat) :
    D.conduct.Runs ((Finder.processing D.busy (rounds + 2) process).findPreferred q tag) s
      (Found D.busy q fun _ => true) := by
  refine (hprocess.prefer hs hn q tag rounds).mono ?_
  intro r s' hs' _ hr
  generalize hfound : s'.preferred? q tag = found at hr
  cases hr with
  | none =>
    have hlast := List.findSome?_eq_none_iff.mp hfound (fun _ => true) (by simp [preferences])
    exact fun t => (D.sound hs').of_lookup?_eq_none hlast
  | @some t hbegun =>
    obtain ⟨ht, hq⟩ := (D.sound hs').preferred? hfound
    exact ⟨t, ht, rfl, hq, rfl, hbegun⟩

/-- What is nested in a type that is begun is found as it is. -/
theorem findInner (hs : D.Inv s) (hu : s.Holds u) (hbegun : ¬ u.status < D.busy) (q : QName)
    (hallowed : D.Allowed (innerNotFound u q).cause) (rounds : Nat) :
    D.conduct.Runs ((Finder.processing D.busy rounds process).findInner u.id q) s
      fun r s' => s' = s ∧ ∃ c ∈ u.inner, ∃ v, Within v c ∧ v.id = r := by
  simp only [Finder.processing, findNested, bind_assoc]
  refine typeOf_bind hs hu ?_
  cases hnested : u.nested? q with
  | none =>
    exact .throw ⟨hallowed, List.Subset.refl _⟩
  | some v =>
    obtain ⟨c, hc, hv⟩ := mem_walkAll_iff.mp (List.mem_of_find?_eq_some hnested)
    have hdone := pending_eq_nil_iff.mp (D.closed hs u hu hbegun) v (.inner hc hv)
    simp only [pure_bind, if_neg hdone]
    exact .pure hs ⟨rfl, c, hc, v, hv, rfl⟩

-- ---------------------------------------------------------------------------
-- Trees
-- ---------------------------------------------------------------------------

theorem Applies.applyPending_single (happly : D.Applies n apply) {s₀ : Store} (ht : s₀.Holds t)
    (hleads : D.Leads s₀ s) (hs : D.Inv s) (hn : (s.pending D.busy).length ≤ n)
    (hinner : ∀ h ∈ t.inner.flatMap (pending D.busy), h ∉ s.pending D.busy) :
    D.conduct.Runs (applyPending D.busy apply [t.id]) s fun _ s' => t.id ∉ s'.pending D.busy := by
  obtain ⟨t', ht', hid, hsub⟩ := (D.grows hleads).types t ht
  rw [applyPending, ← hid]
  refine typeOf_bind hs ht' ?_
  split
  case isTrue hlt =>
    have hnodup : t'.handles.Nodup := by
      obtain ⟨root, hroot, hin⟩ := ht'
      exact hin.nodup_handles (Store.nodup_handles_of_mem (D.sound hs).handles hroot)
    have hbegun : ∀ c ∈ t'.inner, c.pending D.busy = [] :=
      inner_begun_of_pending hid hnodup hsub fun h hh hpending => hinner h hh (ht'.pending_subset hpending)
    refine .bind (happly hs ht' hlt hbegun hn) fun _ s' hs' _ hdone => ?_
    exact .pure hs' hdone
  case isFalse hlt =>
    refine .pure hs ?_
    rwa [ht'.mem_pending_iff (D.sound hs).handles]

theorem Applies.applyPending_flatMap {s₀ : Store} {ts : List SchemaType}
    (hts : ∀ t ∈ ts, ∀ {s}, D.Leads s₀ s → D.Inv s → (s.pending D.busy).length ≤ n →
      D.conduct.Runs (applyPending D.busy apply (t.pending D.busy).reverse) s
        fun _ s' => ∀ h ∈ t.pending D.busy, h ∉ s'.pending D.busy)
    (hleads : D.Leads s₀ s) (hs : D.Inv s) (hn : (s.pending D.busy).length ≤ n) :
    D.conduct.Runs (applyPending D.busy apply (ts.flatMap (pending D.busy)).reverse) s
      fun _ s' => ∀ h ∈ ts.flatMap (pending D.busy), h ∉ s'.pending D.busy := by
  induction ts generalizing s with
  | nil => exact .pure hs fun h hh => absurd hh List.not_mem_nil
  | cons t ts ih =>
    rw [List.flatMap_cons, List.reverse_append, applyPending_append]
    refine .bind (ih (fun u hu => hts u (List.mem_cons_of_mem _ hu)) hleads hs hn)
      fun _ s' hs' hleads' hdone => ?_
    have hn' := Nat.le_trans (length_pending_le hs' hleads') hn
    refine (hts t List.mem_cons_self (D.trans hleads hleads') hs' hn').mono ?_
    intro _ s'' hs'' hleads'' hdone' h hh
    obtain hh | hh := List.mem_append.mp hh
    · exact hdone' h hh
    · exact fun hmem => hdone h hh (pending_subset hs'' hleads'' hmem)

/-- The types of a tree are worked on from the inside out. -/
theorem Applies.applyPending (happly : D.Applies n apply) {s₀ : Store} (t : SchemaType)
    (ht : s₀.Holds t) (hleads : D.Leads s₀ s) (hs : D.Inv s)
    (hn : (s.pending D.busy).length ≤ n) :
    D.conduct.Runs (applyPending D.busy apply (t.pending D.busy).reverse) s
      fun _ s' => ∀ h ∈ t.pending D.busy, h ∉ s'.pending D.busy := by
  induction t using induct generalizing s with
  | type t ih =>
    rw [pending_eq, List.reverse_append, applyPending_append]
    refine .bind (applyPending_flatMap (fun c hc => ih c hc (ht.within (.inner hc .self)))
      hleads hs hn) fun _ s' hs' hleads' hinner => ?_
    split
    case isTrue hlt =>
      have hn' := Nat.le_trans (length_pending_le hs' hleads') hn
      refine (happly.applyPending_single ht (D.trans hleads hleads') hs' hn' hinner).mono ?_
      intro _ s'' hs'' hleads'' hself h hh
      obtain hh | hh := List.mem_append.mp hh
      · rwa [List.mem_singleton.mp hh]
      · exact fun hmem => hinner h hh (pending_subset hs'' hleads'' hmem)
    case isFalse hlt => exact .pure hs' hinner

theorem Applies.applyTree (happly : D.Applies n apply) (hs : D.Inv s) (ht : s.Holds t)
    (hn : (s.pending D.busy).length ≤ n) (rounds : Nat) :
    D.conduct.Runs (applyTree D.busy apply t.id (rounds + 2)) s fun _ s' => t.id ∉ s'.pending D.busy := by
  have hstop : ∀ {s t} k, D.Inv s → s.Holds t → t.pending D.busy = [] →
      D.conduct.Runs (Schemata.applyTree D.busy apply t.id (k + 1)) s
        fun _ s' => t.id ∉ s'.pending D.busy := by
    intro s t k hs ht hnil
    rw [applyTree_succ]
    refine typeOf_bind hs ht ?_
    rw [hnil, if_pos List.isEmpty_nil]
    refine .pure hs ?_
    rw [ht.mem_pending_iff (D.sound hs).handles]
    exact pending_eq_nil_iff.mp hnil t .self
  by_cases hnil : t.pending D.busy = []
  · exact hstop (rounds + 1) hs ht hnil
  · rw [applyTree_succ]
    refine typeOf_bind hs ht ?_
    rw [if_neg (by simpa using hnil)]
    refine .bind (happly.applyPending t ht (D.refl s) hs hn) fun _ s' hs' hleads hdone => ?_
    -- the second round finds nothing left
    obtain ⟨t', ht', hid, hsub⟩ := (D.grows hleads).types t ht
    rw [← hid]
    refine hstop rounds hs' ht' (List.eq_nil_iff_forall_not_mem.mpr fun h hh => ?_)
    exact hdone h (hsub hh) (ht'.pending_subset hh)

/-- Every look-up begins a type, so it takes less than as many levels as there are types to do. -/
theorem processes_processTree {step : Step} (hbusy : step.busy = D.busy)
    (hsequential : step.parallel = false) {rounds : Nat}
    (happly : ∀ {n process}, D.Processes n process →
      D.Applies n (step.apply (rounds + 2) (.processing D.busy (rounds + 2) process))) (n : Nat) :
    D.Processes n (step.processTree (rounds + 2) n) := by
  induction n with
  | zero =>
    intro s u _ _ hn
    exact absurd hn (Nat.not_lt_zero _)
  | succ n ih =>
    intro s u hs hu hn
    rw [Step.processTree, hsequential, if_neg Bool.false_ne_true, hbusy]
    exact (happly ih).applyTree hs hu (Nat.le_of_lt_succ hn) rounds

-- ---------------------------------------------------------------------------
-- Sweeps
-- ---------------------------------------------------------------------------

theorem pending_eq_nil_of_roots (hs : D.Inv s)
    (hroots : ∀ e ∈ s.roots, ¬ e.type.status < D.busy) : s.pending D.busy = [] := by
  refine List.flatMap_eq_nil_iff.mpr fun t ht => ?_
  obtain ⟨e, he, rfl⟩ := List.mem_map.mp ht
  exact D.closed hs e.type (Store.holds_of_mem_types ht) (hroots e he)

theorem Processes.sweepRoots {step : Step} (hbusy : step.busy = D.busy)
    (hsequential : step.parallel = false) {bound : Nat}
    (hprocess : D.Processes bound (step.processTree bound bound)) {s₀ : Store} (es : List Entry)
    (hes : es ⊆ s₀.roots) (hleads : D.Leads s₀ s) (hs : D.Inv s)
    (hn : (s.pending D.busy).length < bound) :
    D.conduct.Runs (step.sweepRoots bound (es.map (·.key))) s
      fun _ s' => ∀ e ∈ es, e.type.id ∉ s'.pending D.busy := by
  induction es generalizing s with
  | nil => exact .pure hs fun e he => absurd he List.not_mem_nil
  | cons e es ih =>
    obtain ⟨he, hes⟩ := List.cons_subset.mp hes
    obtain ⟨e', he', houtline⟩ := (D.grows hleads).exists_root he
    have hkey : e'.key = e.key := congrArg (·.1) houtline
    have hid : e'.type.id = e.type.id := congrArg (·.2.1) houtline
    have hheld : s.Holds e'.type := Store.holds_of_mem_types (List.mem_map_of_mem he')
    have htype := Store.typeOfKey?_of_mem (D.sound hs).keys he'
    have hcontains : s.contains e'.key = true := by
      simp [Store.contains, htype, (D.sound hs).byHandle e' he']
    rw [List.map_cons, Step.sweepRoots, ← hkey]
    refine .get_bind ?_
    simp only [htype]
    refine .get_bind ?_
    simp only [hsequential, hcontains, hbusy, Bool.false_or, Bool.and_true, decide_eq_true_eq]
    split
    case isTrue hlt =>
      refine .bind (hprocess hs hheld hn) fun _ s' hs' hleads' hdone => ?_
      have hn' := D.length_pending_lt hs' hleads' hn
      refine (ih hes (D.trans hleads hleads') hs' hn').mono ?_
      intro _ s'' hs'' hleads'' hrest f hf
      obtain rfl | hf := List.mem_cons.mp hf
      · rw [← hid]
        exact fun hmem => hdone (pending_subset hs'' hleads'' hmem)
      · exact hrest f hf
    case isFalse hlt =>
      refine (ih hes hleads hs hn).mono ?_
      intro _ s'' hs'' hleads'' hrest f hf
      obtain rfl | hf := List.mem_cons.mp hf
      · rw [← hid]
        rw [← hheld.mem_pending_iff (D.sound hs).handles] at hlt
        exact fun hmem => hlt (pending_subset hs'' hleads'' hmem)
      · exact hrest f hf

theorem Processes.sweep {step : Step} (hbusy : step.busy = D.busy)
    (hsequential : step.parallel = false) (hprepare : step.passes.forM Pass.prepare = pure ())
    {bound : Nat} (hprocess : D.Processes bound (step.processTree bound bound)) (hs : D.Inv s)
    (hn : (s.pending D.busy).length < bound) (rounds number : Nat) :
    D.conduct.Runs (step.sweep bound false (rounds + 2) number) s
      fun _ s' => s'.pending D.busy = [] := by
  have hstop : ∀ {s} k number, D.Inv s → s.roots.filter (·.type.status < step.busy) = [] →
      D.conduct.Runs (step.sweep bound false (k + 1) number) s fun _ s' => s'.pending D.busy = [] := by
    intro s k number hs hnil
    rw [Step.sweep]
    refine .get_bind ?_
    rw [hnil, List.map_nil, if_pos List.isEmpty_nil]
    refine .pure hs (pending_eq_nil_of_roots hs fun e he hlt => ?_)
    refine absurd (List.mem_filter.mpr ⟨he, ?_⟩) (hnil ▸ List.not_mem_nil)
    rw [hbusy]
    exact decide_eq_true hlt
  by_cases hnil : s.roots.filter (·.type.status < step.busy) = []
  · exact hstop (rounds + 1) number hs hnil
  · rw [Step.sweep, hprepare]
    refine .get_bind ?_
    rw [if_neg (by simpa using hnil), if_neg Bool.false_ne_true, pure_bind]
    refine .bind (runs_quiet hs rfl (D.silent (noted_append_swept ..))) fun _ s₁ hs₁ hleads₁ _ => ?_
    have hn₁ := D.length_pending_lt hs₁ hleads₁ hn
    refine .bind (hprocess.sweepRoots hbusy hsequential _ (List.filter_subset_self _) hleads₁ hs₁
      hn₁) fun _ s₂ hs₂ hleads₂ hdone => ?_
    -- the second sweep finds all roots begun
    refine hstop rounds (number + 1) hs₂ (List.filter_eq_nil_iff.mpr fun e' he' => ?_)
    have hleads := D.trans hleads₁ hleads₂
    have hmem := List.mem_map_of_mem (f := Entry.outline) he'
    rw [(D.grows hleads).outline] at hmem
    obtain ⟨e, he, houtline⟩ := List.mem_map.mp hmem
    have hid : e.type.id = e'.type.id := congrArg (·.2.1) houtline
    have hheld : s.Holds e.type := Store.holds_of_mem_types (List.mem_map_of_mem he)
    have hheld' : s₂.Holds e'.type := Store.holds_of_mem_types (List.mem_map_of_mem he')
    rw [decide_eq_true_eq, hbusy, ← hheld'.mem_pending_iff (D.sound hs₂).handles, ← hid]
    by_cases hlt : e.type.status < D.busy
    · refine hdone e (List.mem_filter.mpr ⟨he, ?_⟩)
      rw [hbusy]
      exact decide_eq_true hlt
    · rw [← hheld.mem_pending_iff (D.sound hs).handles] at hlt
      exact fun hmem => hlt (pending_subset hs₂ hleads hmem)

end Discipline

theorem Store.length_walkAll_le_weight (s : Store) : (walkAll s.types).length ≤ s.weight := by
  unfold Store.weight
  induction walkAll s.types with
  | nil => exact Nat.zero_le _
  | cons t ts ih =>
    have ht : 1 ≤ t.weight := by
      unfold SchemaType.weight
      omega
    simp only [List.length_cons, List.map_cons, Lists.total]
    omega

theorem Store.length_roots_le_weight (s : Store) : s.roots.length ≤ s.weight := by
  have hroots : ∀ ts : List SchemaType, ts.length ≤ (walkAll ts).length := by
    intro ts
    induction ts with
    | nil => exact Nat.zero_le _
    | cons t ts ih =>
      rw [walkAll, walk_eq, List.length_append, List.length_cons, List.length_cons]
      omega
  have hle := hroots s.types
  rw [Store.types, List.length_map] at hle
  exact Nat.le_trans hle s.length_walkAll_le_weight

namespace Discipline

variable {D : Discipline}

/-- A sequential step comes to its end and leaves no type that is not begun, when working on a type
keeps to the discipline however large the bound on rounds is. -/
theorem run {step : Step} (hbusy : step.busy = D.busy) (hsequential : step.parallel = false)
    (hprepare : step.passes.forM Pass.prepare = pure ()) (hs : D.Inv s)
    (happly : ∀ rounds, s.weight ≤ rounds → 2 ^ s.weight ≤ rounds → ∀ {n process},
      D.Processes n process →
        D.Applies n (step.apply (rounds + 2) (.processing D.busy (rounds + 2) process))) :
    D.conduct.Runs (step.run false) s fun _ s' => s'.pending D.busy = [] := by
  refine wp_run fun bound hbound hways => ?_
  obtain ⟨rounds, rfl⟩ : ∃ rounds, bound = rounds + 2 := ⟨bound - 2, by omega⟩
  have hn : (s.pending D.busy).length < rounds + 2 := by
    have hweight := s.length_walkAll_le_weight
    have hpending : (s.pending D.busy).length ≤ (walkAll s.types).length := by
      rw [Store.pending_eq, List.length_map]
      exact List.length_filter_le _ _
    omega
  have hprocess := processes_processTree hbusy hsequential (happly rounds (by omega) (by omega)) (rounds + 2)
  refine Conduct.Runs.bind (runs_quiet hs rfl (D.silent rfl)) fun _ s₁ hs₁ hleads₁ _ => ?_
  exact hprocess.sweep hbusy hsequential hprepare hs₁ (D.length_pending_lt hs₁ hleads₁ hn) rounds 1

end Discipline

end Schemata
