import Schemata.Proofs.Inherit.Flattening
import Schemata.Proofs.Inherit.Hierarchy

/-!
# Names that are inherited

Bases are settled one after the other. While a base is looked up, the type that has it is in order;
while it is copied, its own fields and bases stay as they are. A base is taken off only when the type
has its fields, so what can be lost are names that the base inherits.
-/

namespace Schemata

open Compile SchemaType Relation

variable {s₀ s s' : Store} {price : QName → Nat} {active : Option Handle} {t u u₀ : SchemaType}
  {h source : Handle} {fs bfs : List Field} {es bes : List Extension} {n rounds : Nat}
  {process : Handle → Compile Unit}

/-- The failure to find a nested type. -/
def Cause.NotNested (c : Cause) : Prop :=
  ∃ e, c = .compile e ∧ e.rule = .innerNotFound

/-- The discipline of settling bases, from the store `s₀` on, while it works on the type `active`. -/
def flattening (s₀ : Store) (price : QName → Nat) (active : Option Handle) : Discipline where
  busy := .flattening
  Inv := s₀.Flattening price active
  Leads := Store.Progress .flattening .flattened active
  Allowed := Cause.NotNested
  sound hs := hs.sound
  closed hs := hs.closed
  refl := .refl active
  trans := .trans (by decide)
  grows hleads := hleads.grows
  quiet _ _ _ hs :=
    ⟨⟨⟨hs.sound.keys, hs.sound.handles, hs.sound.below, hs.sound.byName, hs.sound.byHandle⟩,
      hs.closed, hs.outline, hs.kept, hs.types⟩, rfl, (Store.Progress.refl active _).types⟩

/-- The type is worked on and has these fields and bases. -/
def Settling (h : Handle) (fs : List Field) (es : List Extension) (s : Store) : Prop :=
  ∃ t, s.Holds t ∧ t.id = h ∧ t.status = .flattening ∧ t.fields = fs ∧ t.extensions = es

/-- The root is begun and has these fields and bases. -/
def Lending (source : Handle) (fs : List Field) (es : List Extension) (s : Store) : Prop :=
  ∃ t, s.Holds t ∧ t.id = source ∧ ¬ t.status < .flattening ∧ t.fields = fs ∧ t.extensions = es

theorem not_lt_of_flattening (hstatus : t.status = .flattening) : ¬ t.status < .flattening := by
  rw [hstatus]
  decide

theorem Settling.later (hw : Settling h fs es s)
    (hleads : Store.Progress .flattening .flattened none s s') : Settling h fs es s' := by
  obtain ⟨t, ht, rfl, hstatus, rfl, rfl⟩ := hw
  obtain ⟨t', ht', hid, hstatus', hfields, hbases⟩ :=
    hleads.begun (by decide) ht (not_lt_of_flattening hstatus) nofun
  exact ⟨t', ht', hid, hstatus'.trans hstatus, hfields, hbases⟩

theorem Settling.typeOf_bind {α : Type} {D : Discipline} {f : SchemaType → Compile α}
    {Q : α → Store → Prop} (hw : Settling h fs es s) (hs : D.Inv s)
    (hf : ∀ t, t.fields = fs → t.extensions = es → D.conduct.Runs (f t) s Q) :
    D.conduct.Runs (typeOf h >>= f) s Q := by
  obtain ⟨t, ht, rfl, -, hfields, hbases⟩ := hw
  exact Discipline.typeOf_bind hs ht (hf t hfields hbases)

theorem Lending.later (hl : Lending source fs es s)
    (hleads : Store.Progress .flattening .flattened active s s') (hne : some source ≠ active) :
    Lending source fs es s' := by
  obtain ⟨t, ht, rfl, hbegun, rfl, rfl⟩ := hl
  obtain ⟨t', ht', hid, hstatus, hfields, hbases⟩ := hleads.begun (by decide) ht hbegun hne
  exact ⟨t', ht', hid, hstatus ▸ hbegun, hfields, hbases⟩

/-- A change of the type that is worked on, as long as it keeps what it is. -/
theorem runs_update {g : SchemaType → SchemaType} (hg : Extends g [])
    (hstatus : ∀ t, (g t).status = t.status) (hs : s₀.Flattening price (some h) s)
    (hw : Settling h fs es s) :
    (flattening s₀ price (some h)).conduct.Runs (update h g) s fun _ s' => ∃ t, t.fields = fs ∧
      t.extensions = es ∧ Settling h (g t).fields (g t).extensions s' := by
  obtain ⟨t, ht, rfl, hbusy, hfields, hbases⟩ := hw
  have hchange : s.Change .flattening g [] s.nextHandle :=
    .plain s hg fun u hlt => hstatus u ▸ hlt
  have hbegun := not_lt_of_flattening hbusy
  refine .update (hs.change (.inr rfl) hchange ht (hs.closed.inner_pending ht hbegun))
    (hchange.progress _ hs.sound.handles t.id) ?_
  exact ⟨t, hfields, hbases, g t, hchange.holds hs.sound ht, hg.id t, (hstatus t).trans hbusy, rfl, rfl⟩

-- ---------------------------------------------------------------------------
-- Copies
-- ---------------------------------------------------------------------------

theorem runs_borrow_base (hne : source ≠ h) (hs : s₀.Flattening price (some h) s)
    (hw : Settling h fs es s) (hl : Lending source bfs bes s) (q : QName) :
    (flattening s₀ price (some h)).conduct.Runs
      (borrow (.processing .flattening rounds process) source h q) s
      fun _ s' => Settling h fs es s' ∧ Lending source bfs bes s' := by
  obtain ⟨t, ht, rfl, hstatus, hfields⟩ := id hw
  obtain ⟨src, hsrc, rfl, hbegun, -⟩ := id hl
  refine Discipline.runs_borrow (D := flattening s₀ price (some t.id)) hs ht hsrc hbegun q
    ⟨_, rfl, rfl⟩ ⟨hw, hl⟩ fun c hc v hv hpending => ?_
  have hchange := Store.Change.copy s hpending
  have hinner := hs.closed.inner_pending ht (not_lt_of_flattening hstatus)
  have hleads := hchange.progress .flattened hs.sound.handles t.id
  exact ⟨hs.change (.inr rfl) hchange ht hinner, hleads,
    ⟨_, hchange.holds hs.sound ht, rfl, hstatus, hfields⟩,
    hl.later hleads fun heq => hne (Option.some.inj heq)⟩

theorem runs_borrowTypes_base (hne : source ≠ h) (hs : s₀.Flattening price (some h) s)
    (hw : Settling h fs es s) (hl : Lending source bfs bes s) (f : Field) :
    (flattening s₀ price (some h)).conduct.Runs
      (borrowTypes (.processing .flattening rounds process) source h f) s
      fun f' s' => (Settling h fs es s' ∧ Lending source bfs bes s') ∧
        f'.name = f.name ∧ f'.tag = f.tag := by
  refine Conduct.Runs.mapTypesM_of_forall (fun ft s hs hJ => ?_) f hs ⟨hw, hl⟩
  unfold borrowType
  split
  · refine .bind (runs_borrow_base hne hs hJ.1 hJ.2 ft.qname) fun _ s' hs' _ hJ' => ?_
    exact .pure hs' hJ'
  · exact .pure hs hJ

/-- The fields that are copied are those whose names are not taken. -/
theorem runs_copyFields (hne : source ≠ h) (hs : s₀.Flattening price (some h) s)
    (hw : Settling h fs es s) (hl : Lending source bfs bes s)
    (hplain : ∀ f ∈ bfs, f.isEnumeration = false) (r : Restrictions) (taken : List String)
    (positions : List Nat) (hpositions : ∀ i ∈ positions, i < bfs.length) :
    (flattening s₀ price (some h)).conduct.Runs
      (copyFields (.processing .flattening rounds process) source h r taken positions) s
      fun copies s' => (Settling h fs es s' ∧ Lending source bfs bes s') ∧
        (∀ f ∈ copies, f.isEnumeration = false ∧ ∃ b ∈ bfs, b.name = f.name) ∧
        ∀ i ∈ positions, ∀ b, bfs[i]? = some b → b.name ∈ taken ∨ ∃ f ∈ copies, f.name = b.name := by
  induction positions generalizing s with
  | nil => exact .pure hs ⟨⟨hw, hl⟩, by simp, by simp⟩
  | cons i rest ih =>
    obtain ⟨hi, hrest⟩ := List.forall_mem_cons.mp hpositions
    obtain ⟨src, hsrc, rfl, -, hfields, -⟩ := id hl
    have hget : bfs[i]? = some bfs[i] := List.getElem?_eq_getElem hi
    rw [copyFields]
    refine Discipline.fieldOf_bind hs hsrc ?_
    rw [hfields, hget, Option.getD_some]
    split
    case isTrue htaken =>
      refine (ih hs hw hl hrest).mono ?_
      rintro copies s' - - ⟨hJ, hcopies, hcovered⟩
      refine ⟨hJ, hcopies, fun j hj b hb => ?_⟩
      obtain rfl | hj := List.mem_cons.mp hj
      · rw [hget] at hb
        exact .inl (Option.some.inj hb ▸ by simpa using htaken)
      · exact hcovered j hj b hb
    case isFalse =>
      refine .bind (runs_borrowTypes_base hne hs hw hl _) fun copy s' hs' _ hcopy => ?_
      obtain ⟨⟨hw', hl'⟩, hname, htag⟩ := hcopy
      refine .bind (ih hs' hw' hl' hrest) fun copies s'' hs'' _ hr => ?_
      obtain ⟨hJ, hcopies, hcovered⟩ := hr
      refine .pure hs'' ⟨hJ, ?_, fun j hj b hb => ?_⟩
      · refine List.forall_mem_cons.mpr ⟨⟨?_, bfs[i], List.getElem_mem hi, hname.symm⟩, hcopies⟩
        rw [Field.isEnumeration, htag]
        exact hplain bfs[i] (List.getElem_mem hi)
      · obtain rfl | hj := List.mem_cons.mp hj
        · rw [hget] at hb
          exact .inr ⟨copy, List.mem_cons_self, Option.some.inj hb ▸ hname⟩
        · refine (hcovered j hj b hb).imp_right ?_
          rintro ⟨f, hf, hfb⟩
          exact ⟨f, List.mem_cons_of_mem _ hf, hfb⟩

/-- Copying a base leaves the type with its fields, and with its bases. -/
theorem runs_copyBase (hne : source ≠ h) (hs : s₀.Flattening price (some h) s)
    (hw : Settling h fs es s) (hl : Lending source bfs bes s)
    (hplain : ∀ f ∈ bfs, f.isEnumeration = false) (ext : Extension) :
    (flattening s₀ price (some h)).conduct.Runs
      (copyBase (.processing .flattening rounds process) source h ext) s
      fun _ s' => ∃ copies added, Settling h (copies ++ fs) (es ++ added) s' ∧
        (∀ f ∈ copies, f.isEnumeration = false ∧ ∃ b ∈ bfs, b.name = f.name) ∧
        (∀ b ∈ bfs, ∃ f ∈ copies ++ fs, f.name = b.name) ∧
        (∀ a ∈ added, ∃ c ∈ bes, c.type = a.type) ∧ cost price added ≤ cost price bes := by
  obtain ⟨t, ht, rfl, -, hfields, -⟩ := id hw
  obtain ⟨src, hsrc, rfl, -, hlent, -⟩ := id hl
  unfold copyBase
  refine Discipline.typeOf_bind hs ht (Discipline.typeOf_bind hs hsrc ?_)
  rw [hfields, hlent]
  refine .bind (runs_copyFields hne hs hw hl hplain _ _ _ fun i hi => List.mem_range.mp hi)
    fun copies s' hs' _ hr => ?_
  obtain ⟨⟨hw', src', hsrc', hid', -, -, hbases'⟩, hcopies, hcovered⟩ := hr
  rw [← hid']
  refine Discipline.typeOf_bind hs' hsrc' ?_
  rw [hbases']
  refine (runs_update ?_ ?_ hs' hw').mono ?_
  · refine ⟨fun t => ?_, fun t => ?_, fun t => ?_, fun t => ?_⟩ <;>
      simp only [addBases_id, addBases_qname, addBases_tag, addBases_inner, List.append_nil]
  · intro t
    simp only [addBases_status]
  · rintro _ s'' - - ⟨u, rfl, rfl, hw''⟩
    obtain ⟨added, hext, hadded, hcost⟩ :=
      exists_addBases price { u with fields := copies ++ u.fields } bes ext.restrictions
    refine ⟨copies, added, ?_, hcopies, fun b hb => ?_, hadded, hcost⟩
    · simpa only [hext, addBases_fields] using hw''
    · obtain ⟨i, hi, rfl⟩ := List.mem_iff_getElem.mp hb
      obtain hmem | ⟨f, hf, hname⟩ :=
        hcovered i (List.mem_range.mpr hi) _ (List.getElem?_eq_getElem hi)
      · obtain ⟨f, hf, hname⟩ := List.mem_map.mp hmem
        exact ⟨f, List.mem_append_right _ hf, hname⟩
      · exact ⟨f, List.mem_append_left _ hf, hname⟩

-- ---------------------------------------------------------------------------
-- One base after the other
-- ---------------------------------------------------------------------------

/-- The bases before a position are bound, and those from it on cost less than `c`. -/
def Settled (s₀ : Store) (price : QName → Nat) (u₀ : SchemaType) (i c : Nat) (s : Store) : Prop :=
  ∃ fs pre post, Settling u₀.id fs (pre ++ post) s ∧ Descent s₀ price u₀ fs (pre ++ post) ∧
    (∀ e ∈ pre, s₀.BindsBase e) ∧ pre.length = i ∧ cost price post < c

theorem runs_dropBase {pre post : List Extension} {ext : Extension}
    (hs : s₀.Flattening price (some h) s) (hw : Settling h fs (pre ++ ext :: post) s) :
    (flattening s₀ price (some h)).conduct.Runs (dropBase h pre.length) s
      fun _ s' => Settling h fs (pre ++ post) s' := by
  unfold dropBase
  refine (runs_update ?_ ?_ hs hw).mono ?_
  · exact ⟨fun _ => rfl, fun _ => rfl, fun _ => rfl, fun t => (List.append_nil t.inner).symm⟩
  · exact fun _ => rfl
  · rintro _ s' - - ⟨t, rfl, hbases, hw'⟩
    simpa [hbases, List.eraseIdx_append_of_length_le] using hw'

theorem runs_bindBase {pre post : List Extension} {ext : Extension} (base : Handle)
    (hs : s₀.Flattening price (some h) s) (hw : Settling h fs (pre ++ ext :: post) s) :
    (flattening s₀ price (some h)).conduct.Runs
      (update h fun t => { t with
        extensions := t.extensions.modify pre.length fun e => { e with type.reference := base } }) s
      fun _ s' => Settling h fs (pre ++ { ext with type.reference := base } :: post) s' := by
  refine (runs_update ?_ ?_ hs hw).mono ?_
  · exact ⟨fun _ => rfl, fun _ => rfl, fun _ => rfl, fun t => (List.append_nil t.inner).symm⟩
  · exact fun _ => rfl
  · rintro _ s' - - ⟨t, rfl, hbases, hw'⟩
    rwa [hbases, Lists.modify_append_cons] at hw'

/-- A base is found, it is another type, and it descends from the root of the name. -/
theorem exists_source (hs₀ : s₀.Sound) (hh : s₀.Hierarchy) (hu₀ : s₀.Holds u₀)
    (hs : s₀.Flattening price (some u₀.id) s) {q : QName}
    (hq : ∃ b ∈ s₀.types, b.qname = q ∧ TransGen s₀.BaseNamed u₀ b) {r : Option Handle}
    (hr : Discipline.Found .flattening q (fun _ => true) r s) :
    ∃ src, r = some src.id ∧ s.Holds src ∧ src.id ≠ u₀.id ∧ ¬ src.status < .flattening ∧
      src.isComplex = true ∧
      ∃ b ∈ s₀.types, b.id = src.id ∧ b.qname = q ∧ Descends s₀ price b src := by
  obtain ⟨b, hb, rfl, hreach⟩ := hq
  cases r with
  | none =>
    obtain ⟨b', hb', -, hname', -⟩ := Store.exists_of_outline hs.outline.symm hb
    exact Bool.noConfusion (hr b' hb' hname')
  | some source =>
    obtain ⟨src, hsrc, rfl, hname, -, hbegun⟩ := hr
    obtain ⟨b', hb', hid', hname', -⟩ := Store.exists_of_outline hs.outline hsrc
    obtain rfl := hh.eq_of_qname hb hb' (hname.symm.trans hname'.symm)
    have hne : src.id ≠ u₀.id := by
      intro heq
      obtain rfl := (Store.holds_of_mem_types hb).eq_of_id hs₀.handles hu₀ (hid'.trans heq)
      exact hh.acyclic b hreach
    obtain ⟨b', hb', hid', hname', htag, hdescends⟩ :=
      hs.descends_root hs₀ hsrc fun heq => hne (Option.some.inj heq)
    refine ⟨src, rfl, Store.holds_of_mem_types hsrc, hne, hbegun, ?_, b', hb', hid',
      hname'.trans hname, hdescends⟩
    obtain hrecord | hrecord := hh.records b' (Store.holds_of_mem_types hb')
    · simp [isComplex, ← htag, hrecord]
    · simp [isComplex, ← htag, hrecord]

theorem runs_settleBase (hs₀ : s₀.Sound) (hh : s₀.Hierarchy) (hprice : s₀.Priced price)
    (hprocess : (flattening s₀ price none).Processes n process) (hu₀ : s₀.Holds u₀)
    {pre post : List Extension} {ext : Extension} (hbound : ∀ e ∈ pre, s₀.BindsBase e)
    (hd : Descent s₀ price u₀ fs (pre ++ ext :: post))
    (hs : s₀.Flattening price (some u₀.id) s) (hw : Settling u₀.id fs (pre ++ ext :: post) s)
    (hn : (s.pending .flattening).length < n) :
    (flattening s₀ price (some u₀.id)).conduct.Runs
      (settleBase (.processing .flattening (rounds + 2) process) u₀.id pre.length ext) s
      fun kept s' => Settled s₀ price u₀ (if kept then pre.length + 1 else pre.length)
        (cost price (ext :: post)) s' := by
  obtain ⟨hnative, hnot, hbase⟩ := hd.bases ext (List.mem_append_right _ List.mem_cons_self)
  have hnone : s₀.Flattening price none s := by
    obtain ⟨t, ht, hid, hstatus, rfl, hbases⟩ := hw
    refine hs.none_of_descends ht hid hu₀ rfl
      ⟨hbases ▸ hd, fun hlt => absurd hlt (not_lt_of_flattening hstatus), fun hdone => ?_⟩
    rw [hstatus] at hdone
    cases hdone
  unfold settleBase
  simp only [hnative, hnot, Bool.or_self, Bool.false_eq_true, if_false]
  refine .get_bind ?_
  simp only [Store.leadsTo_eq_false hs₀ hh hnone hu₀ hbase, Bool.false_eq_true, if_false]
  -- a look-up leaves the type that is worked on alone
  refine .bind ((hprocess.findPreferred hnone hn _ _ rounds).under id
    fun _ hs' hleads => ⟨hs'.of_none _, hleads.of_none _⟩) fun r s' hs' _ hr => ?_
  obtain ⟨src, rfl, hsrc, hne, hbegun, hcomplex, b, hb, hid, hname, hdescends⟩ :=
    exists_source hs₀ hh hu₀ hs' hbase hr.1
  have hw' := hw.later hr.2
  have hplain := hdescends.descent.plain
  have hdissolve := hd.dissolve hh hprice hb hname hdescends.descent
  refine hw'.typeOf_bind hs' fun t hfields _ => ?_
  refine Discipline.typeOf_bind hs' hsrc ?_
  simp only [isEnumeration_eq_false hplain, hcomplex, Bool.false_eq_true, if_false, Bool.not_true,
    Bool.false_and, Bool.false_or]
  split
  · -- the base is copied
    refine .bind (runs_dropBase hs' hw') fun _ s₁ hs₁ hleads₁ hw₁ => ?_
    have hlend : Lending src.id src.fields src.extensions s₁ :=
      Lending.later ⟨src, hsrc, rfl, hbegun, rfl, rfl⟩ hleads₁ fun heq => hne (Option.some.inj heq)
    refine .bind (runs_copyBase hne hs₁ hw₁ hlend hplain ext) fun _ s₂ hs₂ _ hcopied => ?_
    obtain ⟨copies, added, hw₂, hcopies, hcovered, hadded, hcost⟩ := hcopied
    obtain ⟨hd₂, hless⟩ := hdissolve copies added hcopies hcovered hadded hcost
    exact .pure hs₂ ⟨_, pre, post ++ added, by simpa using hw₂, by simpa using hd₂, hbound, by simp,
      hless⟩
  split
  case isTrue hdrop =>
    -- the type has all fields of the base
    refine .bind (runs_dropBase hs' hw') fun _ s₁ hs₁ _ hw₁ => ?_
    obtain ⟨hd₁, hless⟩ := hdissolve [] [] (by simp)
      (fun f hf => by simpa [HasField, hfields] using hasField_of_fateOf_eq_drop hdrop f hf)
      (by simp) (Nat.zero_le _)
    exact .pure hs₁ ⟨_, pre, post, hw₁, by simpa using hd₁, hbound, by simp, by simpa using hless⟩
  case isFalse =>
    refine .bind (runs_bindBase src.id hs' hw') fun _ s₁ hs₁ _ hw₁ => ?_
    have hd₁ := hd.rebind { ext with type.reference := src.id } rfl rfl
    refine .pure hs₁ ⟨fs, pre ++ [{ ext with type.reference := src.id }], post, by simpa using hw₁,
      by simpa using hd₁, fun e he => ?_, by simp, ?_⟩
    · obtain he | he := List.mem_append.mp he
      · exact hbound e he
      · rw [List.mem_singleton.mp he]
        exact ⟨b, hb, hname, hid⟩
    · have hpaid := hprice b hb
      rw [cost_cons, ← hname]
      omega

theorem runs_settleFrom (hs₀ : s₀.Sound) (hh : s₀.Hierarchy) (hprice : s₀.Priced price)
    (hprocess : (flattening s₀ price none).Processes n process) (hu₀ : s₀.Holds u₀) {left i : Nat}
    (hs : s₀.Flattening price (some u₀.id) s) (hw : Settled s₀ price u₀ i left s)
    (hn : (s.pending .flattening).length < n) :
    (flattening s₀ price (some u₀.id)).conduct.Runs
      (settleFrom (.processing .flattening (rounds + 2) process) u₀.id left i) s
      fun _ s' => ∃ fs es, Settling u₀.id fs es s' ∧ Descent s₀ price u₀ fs es ∧
        ∀ e ∈ es, s₀.BindsBase e := by
  induction left generalizing s i with
  | zero =>
    obtain ⟨_, _, _, -, -, -, -, hcost⟩ := hw
    exact absurd hcost (Nat.not_lt_zero _)
  | succ left ih =>
    obtain ⟨fs, pre, post, hw, hd, hbound, rfl, hcost⟩ := hw
    rw [settleFrom]
    refine hw.typeOf_bind hs fun t _ hbases => ?_
    cases post with
    | nil =>
      rw [hbases, List.append_nil, List.getElem?_eq_none (Nat.le_refl _)]
      exact .pure hs ⟨fs, pre, by simpa using hw, by simpa using hd, hbound⟩
    | cons ext post =>
      have hext : t.extensions[pre.length]? = some ext := by simp [hbases]
      simp only [hext]
      refine .bind (runs_settleBase hs₀ hh hprice hprocess hu₀ hbound hd hs hw hn)
        fun kept s' hs' hleads hw' => ?_
      have hn' := (flattening s₀ price (some u₀.id)).length_pending_lt hs' hleads hn
      obtain ⟨fs', pre', post', hw', hd', hbound', hlength, hless⟩ := hw'
      exact ih hs' ⟨fs', pre', post', hw', hd', hbound', hlength, by omega⟩ hn'

theorem runs_flattenBases (hs₀ : s₀.Sound) (hh : s₀.Hierarchy) (hprice : s₀.Priced price)
    (hprocess : (flattening s₀ price none).Processes n process) (hu₀ : s₀.Holds u₀)
    (hid : u₀.id = h) (hs : s₀.Flattening price (some h) s) (hw : Settling h fs es s)
    (hd : Descent s₀ price u₀ fs es) (hcost : cost price es < rounds + 2)
    (hn : (s.pending .flattening).length < n) :
    (flattening s₀ price (some h)).conduct.Runs
      (flattenBases (rounds + 2) (.processing .flattening (rounds + 2) process) h) s
      fun _ s' => ∃ fs es, Settling h fs es s' ∧ Descent s₀ price u₀ fs es ∧
        ∀ e ∈ es, s₀.BindsBase e := by
  subst hid
  exact runs_settleFrom hs₀ hh hprice hprocess hu₀ hs
    ⟨fs, [], es, hw, hd, fun _ he => absurd he List.not_mem_nil, rfl, hcost⟩ hn

-- ---------------------------------------------------------------------------
-- The step
-- ---------------------------------------------------------------------------

/-- Settles the bases of all types, and does nothing else. -/
def Step.settleBases : Step :=
  { name := "flatten"
    busy := .flattening
    done := .flattened
    passes := [.flattenBases]
    parallel := false }

theorem applies_settleBases (hs₀ : s₀.Sound) (hh : s₀.Hierarchy) (hprice : s₀.Priced price)
    (hcost : ∀ u, s₀.Holds u → cost price u.extensions < rounds + 2)
    (hprocess : (flattening s₀ price none).Processes n process) :
    (flattening s₀ price none).Applies n
      (Step.settleBases.apply (rounds + 2) (.processing .flattening (rounds + 2) process)) := by
  intro s u hs hu hlt hinner hn
  have hbusy : ¬ Status.flattening < .flattening := by decide
  have hdone : ¬ Status.flattened < .flattening := by decide
  obtain ⟨u₀, hu₀, hid₀, hdescends⟩ := (hs.types u hu nofun).resolve_right fun hcopy => hcopy.2 hlt
  have hcheap := Nat.lt_of_le_of_lt hdescends.descent.cost (hcost u₀ hu₀)
  -- the type is begun
  have hbegin := Store.Change.setStatus s hbusy
  have hs₁ := hs.change (.inl rfl) hbegin hu (List.flatMap_eq_nil_iff.mpr hinner)
  have hleads₁ := hbegin.progress .flattened hs.sound.handles u.id
  have hu₁ := hbegin.holds hs.sound hu
  have hn₁ := hleads₁.length_pending_lt hs₁.sound.handles
    ((hu.mem_pending_iff hs.sound.handles).mpr hlt)
    (mt (hu₁.mem_pending_iff hs₁.sound.handles).mp hbusy)
  have hsettle := runs_flattenBases hs₀ hh hprice hprocess hu₀ hid₀ hs₁
    ⟨_, hu₁, rfl, rfl, rfl, rfl⟩ hdescends.descent hcheap (Nat.lt_of_lt_of_le hn₁ hn)
  unfold Conduct.Runs Step.apply
  rw [wp_bind, wp_update, wp_bind]
  refine wp_mono (Discipline.runs_runPasses (Store.mem_handles_iff.mpr ⟨_, hu₁, rfl⟩) hsettle) ?_ ?_
  · -- all bases are bound, and it is done
    rintro _ s₂ ⟨hs₂, hleads₂, fs, es, ⟨t, ht, hid, hstatus, rfl, rfl⟩, hd, hbound⟩
    have hend := Store.Change.setStatus s₂ hdone
    have hs₃ := Store.Flattening.change hs₂ (.inr (congrArg some hid.symm)) hend ht
      (hs₂.closed.inner_pending ht (not_lt_of_flattening hstatus))
    have ht₃ := hend.holds hs₂.sound ht
    have hs₄ := hs₃.none_of_descends ht₃ rfl hu₀ (hid₀.trans hid.symm)
      ⟨hd, fun hlt => absurd hlt hdone, fun _ => hbound⟩
    have hleads₃ := (hleads₁.trans (by decide) hleads₂).trans (by decide)
      (hend.progress _ hs₂.sound.handles u.id)
    have hnot : t.id ∉ Store.pending .flattening _ :=
      mt (ht₃.mem_pending_iff hs₃.sound.handles).mp hdone
    rw [hid] at hs₄ ht₃ hnot
    rw [wp_update]
    exact ⟨hs₄, hleads₃.finish hs.sound hs₄.sound hu (hdescends.raw hlt) ht₃ rfl rfl, hnot⟩
  · rintro f s₂ ⟨hallowed, hhandles⟩
    exact ⟨hallowed, List.Subset.trans hleads₁.grows.handles_subset hhandles⟩

/-- In a hierarchy the step comes to its end, unless a field that is copied refers to an inner type
that is not there. -/
theorem runs_settleBases (hs : s.Sound) (hh : s.Hierarchy)
    (hraw : ∀ u, s.Holds u → u.status = .raw) :
    (flattening s s.price none).conduct.Runs (Step.settleBases.run false) s
      fun _ s' => s'.pending .flattening = [] := by
  refine Discipline.run rfl rfl rfl (.start hs hh hraw) fun rounds _ hways _ _ hprocess => ?_
  refine applies_settleBases hs hh hh.priced (fun u hu => ?_) hprocess
  have hcost := hh.cost_le hu
  omega

-- ---------------------------------------------------------------------------
-- Names before and after
-- ---------------------------------------------------------------------------

namespace Store

variable {u' b b' : SchemaType}

/-- The type of the first store has become the type of the second. -/
def Becomes (s s' : Store) (u u' : SchemaType) : Prop :=
  s.Holds u ∧ s'.Holds u' ∧ u'.id = u.id

/-- Every type has the names, of its own and inherited, that it had. -/
def KeepsNames (s s' : Store) : Prop :=
  ∀ u u', Becomes s s' u u' → ∀ name, Inherits s'.BaseBound name u' ↔ Inherits s.BaseNamed name u

/-- What has become of a store in which all bases are settled. -/
structure Settles (s : Store) (price : QName → Nat) (s' : Store) : Prop where
  kept : ∀ u, s.Holds u → ∃ u', Becomes s s' u u' ∧ u'.status = .flattened
  descent : ∀ u u', Becomes s s' u u' → Descent s price u u'.fields u'.extensions
  bound : ∀ u u', Becomes s s' u u' → ∀ e ∈ u'.extensions, s.BindsBase e

theorem Settles.of_flattening (hs : s.Sound) (hraw : ∀ u, s.Holds u → u.status = .raw)
    (hs' : s.Flattening price none s') (hprogress : Progress .flattening .flattened none s s')
    (hnil : s'.pending .flattening = []) : s.Settles price s' := by
  have hkept : ∀ u, s.Holds u → ∃ u', Becomes s s' u u' ∧ u'.status = .flattened := by
    intro u hu
    obtain ⟨u', hu', hid, -, hadvances⟩ := hprogress.types u hu
    refine ⟨u', ⟨hu, hu', hid⟩, ?_⟩
    obtain ⟨hsame, -⟩ | ⟨-, hdone⟩ := hadvances nofun
    · have hlt : u'.status < .flattening := by
        rw [hsame, hraw u hu]
        decide
      have hpending := (hu'.mem_pending_iff hs'.sound.handles).mpr hlt
      exact absurd hpending (hnil ▸ List.not_mem_nil)
    · exact hdone
  have hdescends : ∀ u u', Becomes s s' u u' → Descends s price u u' := by
    rintro u u' ⟨hu, hu', hid⟩
    obtain ⟨v, hv, hidv, hdescends⟩ :=
      hs'.descends hu' nofun (mem_handles_iff.mpr ⟨u, hu, hid.symm⟩)
    obtain rfl := hv.eq_of_id hs.handles hu (hidv.trans hid)
    exact hdescends
  refine ⟨hkept, fun u u' hbecomes => (hdescends u u' hbecomes).descent, fun u u' hbecomes => ?_⟩
  obtain ⟨v, ⟨-, hv, hidv⟩, hdone⟩ := hkept u hbecomes.1
  obtain rfl := hv.eq_of_id hs'.sound.handles hbecomes.2.1 (hidv.trans hbecomes.2.2.symm)
  exact (hdescends u v hbecomes).bound hdone

namespace Settles

/-- A base is kept, or the type has its fields. -/
theorem baseBound_or (hh : s.Hierarchy) (hend : s.Settles price s') (hb : s.BaseNamed u b)
    (hu : Becomes s s' u u') (hb' : Becomes s s' b b') :
    s'.BaseBound u' b' ∨ ∀ name, b.HasField name → u'.HasField name := by
  refine ((hend.descent u u' hu).covers b hb).imp_left ?_
  rintro ⟨e, he, hname⟩
  obtain ⟨c, hc, hcname, hcid⟩ := hend.bound u u' hu e he
  obtain rfl := hh.eq_of_qname hc hb.1 (hcname.trans hname)
  exact ⟨hb'.2.1, e, he, hcid.symm.trans hb'.2.2.symm⟩

/-- A type gets no names that it did not have. -/
theorem inherits_of_inherits (hh : s.Hierarchy) (hend : s.Settles price s')
    (hu : Becomes s s' u u') {name : String} (hname : Inherits s'.BaseBound name u') :
    Inherits s.BaseNamed name u := by
  induction hname generalizing u with
  | own hown =>
    obtain ⟨f, hf, rfl⟩ := hown
    exact (hend.descent u _ hu).names f hf
  | base hb _ ih =>
    obtain ⟨hb', e, he, href⟩ := hb
    obtain ⟨c, hc, hcname, hcid⟩ := hend.bound u _ hu e he
    obtain ⟨-, -, c', hc', hcname', hreach⟩ := (hend.descent u _ hu).bases e he
    obtain rfl := hh.eq_of_qname hc hc' (hcname.trans hcname'.symm)
    exact .of_transGen hreach (ih ⟨holds_of_mem_types hc, hb', href.symm.trans hcid.symm⟩)

/-- Names are kept when no base that is taken off has names that the type is left without. -/
theorem keepsNames_iff (hh : s.Hierarchy) (hend : s.Settles price s') :
    s.KeepsNames s' ↔ ∀ u u' b b', Becomes s s' u u' → Becomes s s' b b' → s.BaseNamed u b →
      ¬ s'.BaseBound u' b' →
        ∀ name, Inherits s'.BaseBound name b' → Inherits s'.BaseBound name u' := by
  constructor
  · intro hkeeps u u' b b' hu hb hbase _ name hname
    exact (hkeeps u u' hu name).mpr (.base hbase ((hkeeps b b' hb name).mp hname))
  · intro hcovered u u' hu name
    refine ⟨hend.inherits_of_inherits hh hu, fun hname => ?_⟩
    induction hname generalizing u' with
    | own hown => exact .own ((hend.descent _ u' hu).keeps name hown)
    | base hb _ ih =>
      obtain ⟨b', hb', -⟩ := hend.kept _ (holds_of_mem_types hb.1)
      by_cases hbound : s'.BaseBound u' b'
      · exact .base hbound (ih b' hb')
      · exact hcovered _ u' _ b' hu hb' hb hbound name (ih b' hb')

/-- Names are kept when no base has bases. -/
theorem keepsNames_of_flat (hh : s.Hierarchy) (hend : s.Settles price s')
    (hflat : ∀ u b, s.Holds u → s.BaseNamed u b → b.extensions = []) : s.KeepsNames s' := by
  rintro u u' hu name
  refine ⟨hend.inherits_of_inherits hh hu, fun hname => ?_⟩
  cases hname with
  | own hown => exact .own ((hend.descent u u' hu).keeps name hown)
  | @base _ b hb hname =>
    obtain ⟨b', hb', -⟩ := hend.kept b (holds_of_mem_types hb.1)
    cases hname with
    | own hown =>
      obtain hbound | hfields := hend.baseBound_or hh hb hu hb'
      · exact .base hbound (.own ((hend.descent b b' hb').keeps name hown))
      · exact .own (hfields name hown)
    | base hb₂ _ =>
      obtain ⟨e, he, -⟩ := hb₂.2
      rw [hflat u b hu.1 hb] at he
      exact absurd he List.not_mem_nil

end Settles

end Store

/-- What becomes of the names that types have through their bases, when bases are settled in a
hierarchy. The step comes to its end, unless a field that is copied refers to an inner type that is
not there. No type loses a field of its own or gets a name that it did not have, and every base is
kept or leaves its own fields behind. So all names are kept exactly when no base that is taken off has,
in the end, a name that the type is left without, which could only be one that the base inherits; and
in particular when no base has bases. -/
theorem settleBases_keepsNames_iff (hs : s.Sound) (hh : s.Hierarchy)
    (hraw : ∀ u, s.Holds u → u.status = .raw) :
    wp (Step.settleBases.run false)
      (fun _ s' =>
        (∀ u, s.Holds u → ∃ u', Store.Becomes s s' u u' ∧ u'.status = .flattened) ∧
        (∀ u u', Store.Becomes s s' u u' →
          (∀ name, u.HasField name → u'.HasField name) ∧
          (∀ name, Inherits s'.BaseBound name u' → Inherits s.BaseNamed name u) ∧
          ∀ b b', s.BaseNamed u b → Store.Becomes s s' b b' →
            s'.BaseBound u' b' ∨ ∀ name, b.HasField name → u'.HasField name) ∧
        (s.KeepsNames s' ↔ ∀ u u' b b', Store.Becomes s s' u u' → Store.Becomes s s' b b' →
          s.BaseNamed u b → ¬ s'.BaseBound u' b' →
            ∀ name, Inherits s'.BaseBound name b' → Inherits s'.BaseBound name u') ∧
        ((∀ u b, s.Holds u → s.BaseNamed u b → b.extensions = []) → s.KeepsNames s'))
      (fun f _ => f.cause.NotNested) s := by
  refine wp_mono (runs_settleBases hs hh hraw) ?_ fun _ _ hfails => hfails.1
  rintro _ s' ⟨hs', hleads, hnil⟩
  have hend := Store.Settles.of_flattening hs hraw hs' hleads hnil
  refine ⟨hend.kept, fun u u' hu => ⟨?_, ?_, ?_⟩, hend.keepsNames_iff hh, hend.keepsNames_of_flat hh⟩
  · exact (hend.descent u u' hu).keeps
  · exact fun name hname => hend.inherits_of_inherits hh hu hname
  · exact fun b b' hb hb' => hend.baseBound_or hh hb hu hb'

/-- A record with the given fields and bases. -/
def Sample.record (name : String) (fields bases : List String) : SchemaType :=
  { qname := ⟨"urn:t", name⟩, tag := .complexType
    fields := fields.map fun f =>
      { tag := .element, name := f, types := [{ qname := ⟨Native.ns, "string"⟩ }] }
    extensions := bases.map fun b => { tag := .extension, type := { qname := ⟨"urn:t", b⟩ } } }

namespace Restated

open Sample

/-- The third record restates the field of its base, which inherits another. -/
def store : Store :=
  ({} : Store).insertAll [record "A" ["x"] [], record "B" ["y"] ["A"], record "C" ["y"] ["B"]]

theorem sound : store.Sound :=
  .insertAll (.empty {}) (.empty {}) (by decide)

theorem raw : ∀ u, store.Holds u → u.status = .raw := by
  simp only [Store.holds_iff_mem_walkAll]
  decide +kernel

theorem hierarchy : store.Hierarchy :=
  .of_rank (fun t => ["A", "B", "C"].idxOf t.qname.name) (by decide +kernel) (by decide +kernel)
    (by decide +kernel)

/-- Not all names are kept: the third record drops its base, and with it the field of the first. -/
theorem settleBases_loses_name :
    store.Sound ∧ store.Hierarchy ∧ (∀ u, store.Holds u → u.status = .raw) ∧
    wp (Step.settleBases.run false) (fun _ s' => ¬ store.KeepsNames s') (fun _ _ => False) store := by
  refine ⟨sound, hierarchy, raw, ?_⟩
  have hrun : wp (Step.settleBases.run false)
      (fun _ s' => ∃ u ∈ walkAll s'.types, u.id = 3 ∧ u.extensions = [] ∧ ∀ f ∈ u.fields, f.name ≠ "x")
      (fun _ _ => False) store := by
    decide +kernel
  refine wp_mono hrun ?_ fun _ _ hfalse => hfalse
  rintro _ s' ⟨u', hu', hid, hbases, hfields⟩ hkeeps
  have hbase : ∃ u ∈ store.types, u.id = 3 ∧ ∃ b ∈ store.types, (∃ e ∈ u.extensions,
      e.type.qname = b.qname) ∧ ∃ a ∈ store.types, (∃ e ∈ b.extensions, e.type.qname = a.qname) ∧
      ∃ f ∈ a.fields, f.name = "x" := by
    decide +kernel
  obtain ⟨u, hu, huid, b, hb, hub, a, ha, hba, hfield⟩ := hbase
  have hbefore : Inherits store.BaseNamed "x" u := .base ⟨hb, hub⟩ (.base ⟨ha, hba⟩ (.own hfield))
  have hbecomes : store.Becomes s' u u' :=
    ⟨Store.holds_of_mem_types hu, Store.holds_iff_mem_walkAll.mpr hu', hid.trans huid.symm⟩
  cases (hkeeps u u' hbecomes "x").mpr hbefore with
  | own hown =>
    obtain ⟨f, hf, hname⟩ := hown
    exact hfields f hf hname
  | base hb _ =>
    obtain ⟨-, e, he, -⟩ := hb
    rw [hbases] at he
    exact absurd he List.not_mem_nil

end Restated

namespace Overlapping

open Sample

/-- One record shares a field with its base, another has fields of its own only. -/
def store : Store :=
  ({} : Store).insertAll [record "A" ["x", "z"] [], record "B" ["y", "z"] ["A"],
    record "C" ["w"] ["A"]]

theorem settleBases_keepsNames :
    store.Sound ∧ store.Hierarchy ∧ (∀ u, store.Holds u → u.status = .raw) ∧
    wp (Step.settleBases.run false) (fun _ s' => store.KeepsNames s') (fun f _ => f.cause.NotNested)
      store := by
  have hs : store.Sound := .insertAll (.empty {}) (.empty {}) (by decide)
  have hraw : ∀ u, store.Holds u → u.status = .raw := by
    simp only [Store.holds_iff_mem_walkAll]
    decide +kernel
  have hh : store.Hierarchy :=
    .of_rank (fun t => ["A", "B", "C"].idxOf t.qname.name) (by decide +kernel) (by decide +kernel)
      (by decide +kernel)
  have hflat : ∀ u ∈ walkAll store.types, ∀ b ∈ store.types,
      (∃ e ∈ u.extensions, e.type.qname = b.qname) → b.extensions = [] := by
    decide +kernel
  refine ⟨hs, hh, hraw, ?_⟩
  refine wp_mono (settleBases_keepsNames_iff hs hh hraw) ?_ fun _ _ hnested => hnested
  rintro _ s' ⟨-, -, -, hkeeps⟩
  exact hkeeps fun u b hu hb => hflat u (Store.holds_iff_mem_walkAll.mp hu) b hb.1 hb.2

end Overlapping

end Schemata
