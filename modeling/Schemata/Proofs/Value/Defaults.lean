import Schemata.Proofs.Pipeline.Resolving

/-!
# Checks of defaults

The check of the defaults of a type makes of each of its fields what `checkedWhole` says, whatever else
is worked on meanwhile: enumerations that it looks up are done when it sees them, and what is found
busy is none. On the way every field is as it was or has come some way towards what it becomes.
-/

namespace Schemata

open Compile SchemaType Store

namespace FieldPosition

variable {position : FieldPosition} {put : Field → List Field}

/-- The field at a position. -/
def read (position : FieldPosition) (fs : List Field) : Field :=
  match position.choice with
  | none => fs[position.field]?.getD {}
  | some j => (fs[position.field]?.getD {}).choices[j]?.getD {}

/-- The fields with the one at a position changed. -/
def edit (position : FieldPosition) (g : Field → Field) (fs : List Field) : List Field :=
  fs.modify position.field fun f =>
    match position.choice with
    | none => g f
    | some j => { f with choices := f.choices.modify j g }

/-- Fields with room for one at a position. -/
structure Focuses (position : FieldPosition) (put : Field → List Field) : Prop where
  read : ∀ f, position.read (put f) = f
  edit : ∀ f g, position.edit g (put f) = put (g f)

theorem focuses_field (before after : List Field) :
    Focuses ⟨before.length, none⟩ fun f => before ++ f :: after where
  read f := by simp [FieldPosition.read]
  edit f g := Lists.modify_append_cons before after f g

theorem focuses_choice (before after : List Field) (f : Field) (cs cs' : List Field) :
    Focuses ⟨before.length, some cs.length⟩ fun c =>
      before ++ { f with choices := cs ++ c :: cs' } :: after where
  read c := by simp [FieldPosition.read]
  edit c g := by
    refine (Lists.modify_append_cons before after _ _).trans ?_
    dsimp only
    rw [Lists.modify_append_cons]

end FieldPosition

variable {α β : Type} {s₀ s s' : Store} {hs₀ : s₀.Ready} {d : Dress} {t u v : SchemaType} {h : Handle}
  {f : Field} {fs : List Field} {ft : FieldType} {active : Option Handle} {n : Nat}
  {process : Handle → Compile Unit} {Q : β → Store → Prop} {position : FieldPosition}
  {put : Field → List Field}

/-- The step works on the type of a handle, which has come to have the fields. -/
def BeingChecked (h : Handle) (fs : List Field) (s : Store) : Prop :=
  ∃ t, s.Holds t ∧ t.id = h ∧ t.fields = fs ∧ t.status = .resolving

namespace BeingChecked

theorem mem_handles (hw : BeingChecked h fs s) : h ∈ s.handles := by
  obtain ⟨t, ht, hid, -⟩ := hw
  exact mem_handles_iff.mpr ⟨t, ht, hid⟩

theorem dress_eq (hs₀ : s₀.Ready) (hs : s₀.Resolving active d s) (hw : BeingChecked u.id fs s)
    (hu : s₀.Holds u) : d u.id = (fs, .resolving) := by
  obtain ⟨t, ht, hid, rfl, hstatus⟩ := hw
  obtain rfl := hs.eq_dressed hs₀ hu ht hid
  rw [← hstatus, dressed_fields, dressed_status]

theorem of_dress (hs : s₀.Resolving active d s) (hu : s₀.Holds u) (hd : d u.id = (fs, .resolving)) :
    BeingChecked u.id fs s :=
  ⟨u.dressed d, hs.dressed.holds hu, dressed_id d u, by rw [dressed_fields, hd],
    by rw [dressed_status, hd]⟩

/-- What is worked on stays as it is while other types are. -/
theorem proceeds (hw : BeingChecked h fs s) (hp : Proceeds none s s') : BeingChecked h fs s' := by
  obtain ⟨t, ht, rfl, rfl, hstatus⟩ := hw
  have hbegun : ¬ t.status < .resolving := by
    rw [hstatus]
    decide
  obtain ⟨t', ht', hid, hfields, hstatus'⟩ := hp.begun t ht hbegun (Option.some_ne_none _)
  exact ⟨t', ht', hid, hfields, hstatus'.trans hstatus⟩

theorem runs_fieldOf_bind {i : Nat} {g : Field → Compile β} (hs : (resolving hs₀ active).Inv s)
    (hw : BeingChecked h fs s) (hg : (resolving hs₀ active).conduct.Runs (g (fs[i]?.getD {})) s Q) :
    (resolving hs₀ active).conduct.Runs (fieldOf h i >>= g) s Q := by
  obtain ⟨t, ht, rfl, rfl, -⟩ := hw
  exact Discipline.fieldOf_bind hs ht hg

theorem runs_fieldAt_bind {g : Field → Compile β} (hs : (resolving hs₀ active).Inv s)
    (hw : BeingChecked h fs s) (hg : (resolving hs₀ active).conduct.Runs (g (position.read fs)) s Q) :
    (resolving hs₀ active).conduct.Runs (fieldAt h position >>= g) s Q := by
  unfold fieldAt
  rw [bind_assoc]
  refine runs_fieldOf_bind hs hw ?_
  unfold FieldPosition.read at hg
  cases hchoice : position.choice with
  | none =>
    rw [hchoice] at hg
    exact hg
  | some j =>
    rw [hchoice] at hg
    exact hg

theorem runs_typeOf_bind {g : SchemaType → Compile β} (hs : (resolving hs₀ active).Inv s)
    (hw : BeingChecked h fs s)
    (hg : ∀ t, s.Holds t → t.id = h → t.fields = fs → (resolving hs₀ active).conduct.Runs (g t) s Q) :
    (resolving hs₀ active).conduct.Runs (typeOf h >>= g) s Q := by
  obtain ⟨t, ht, rfl, rfl, -⟩ := hw
  exact Discipline.typeOf_bind hs ht (hg t ht rfl rfl)

/-- A change of the fields of the type that is worked on. -/
theorem runs_update {g : SchemaType → SchemaType} (fs' : List Field)
    (hs : (resolving hs₀ (some u.id)).Inv s) (hu : s₀.Holds u) (hw : BeingChecked u.id fs s)
    (hg : ∀ t, s.Holds t → t.id = u.id → t.fields = fs → t.status = .resolving →
      g t = { t with fields := fs', status := .resolving }) :
    (resolving hs₀ (some u.id)).conduct.Runs (update u.id g) s fun _ => BeingChecked u.id fs' := by
  obtain ⟨d, hs⟩ := hs
  have hd := hw.dress_eq hs₀ hs hu
  have hgu := hg (u.dressed d) (hs.dressed.holds hu) (dressed_id d u) (by rw [dressed_fields, hd])
    (by rw [dressed_status, hd])
  have hbegun : ¬ (d u.id).2 < .resolving := by
    rw [hd]
    exact Nat.lt_irrefl _
  obtain ⟨hs', hp⟩ := hs.update hs₀ (.inr rfl) hu
    (fun c hc v hv => hs.begun u hu hbegun v (.inner hc hv)) hgu (by decide)
  exact .update ⟨_, hs'⟩ hp (of_dress hs' hu (Function.update_self ..))

theorem runs_updateFieldAt {g : Field → Field} (hs : (resolving hs₀ (some u.id)).Inv s)
    (hu : s₀.Holds u) (hfocus : position.Focuses put) (hw : BeingChecked u.id (put f) s) :
    (resolving hs₀ (some u.id)).conduct.Runs (updateFieldAt u.id position g) s
      fun _ => BeingChecked u.id (put (g f)) := by
  refine runs_update _ hs hu hw fun t _ _ hfields hstatus => ?_
  rw [← hfocus.edit, ← hfields, ← hstatus]
  rfl

theorem runs_warn (hs : (resolving hs₀ active).Inv s) (hw : BeingChecked h fs s)
    (code type field message : String) :
    (resolving hs₀ active).conduct.Runs (warn code type field message) s fun _ => BeingChecked h fs := by
  refine (Discipline.runs_quiet hs rfl trivial).mono ?_
  rintro _ s' - - rfl
  exact hw

end BeingChecked

-- ---------------------------------------------------------------------------
-- Enumerations
-- ---------------------------------------------------------------------------

theorem Store.source?_holds (hs₀ : s₀.Sound) (hu : s₀.Holds u) (hv : s₀.source? u ft = some v) :
    s₀.Holds v := by
  unfold source? at hv
  split at hv
  case isTrue =>
    obtain ⟨c, hc, hin⟩ := mem_walkAll_iff.mp (List.mem_of_find?_eq_some hv)
    exact hu.within (.inner hc hin)
  case isFalse => exact holds_of_mem_types (hs₀.of_lookup?_eq_some hv).1

/-- What is known when the type that a reference leads to has been looked up. -/
structure Sourced (hs₀ : s₀.Ready) (u : SchemaType) (fs : List Field) (ft : FieldType)
    (r : Option Handle) (s : Store) : Prop where
  inv : (resolving hs₀ none).Inv s
  working : BeingChecked u.id fs s
  result : r = (s₀.source? u ft).map (·.id)
  begun : ∀ v, s₀.source? u ft = some v → ∃ v', s.Holds v' ∧ v'.id = v.id ∧ ¬ v'.status < .resolving

/-- A type that is worked on looks up what it refers to. -/
theorem BeingChecked.runs_source (rounds : Nat) (hprocess : (resolving hs₀ none).Processes n process)
    (hs : (resolving hs₀ (some u.id)).Inv s) (hn : (s.pending .resolving).length < n)
    (hu : s₀.Holds u) (hw : BeingChecked u.id fs s) (hreached : s₀.Reached u (fs, .resolving))
    (hshelter : ft.forward = true → (u.nested? ft.qname).isSome) :
    (resolving hs₀ (some u.id)).conduct.Runs
      (if ft.forward then
        some <$> (Finder.processing .resolving (rounds + 2) process).findInner u.id ft.qname
      else (Finder.processing .resolving (rounds + 2) process).find ft.qname
        fun t => ft.reference == 0 || t.id == ft.reference) s (Sourced hs₀ u fs ft) := by
  obtain ⟨d, hs⟩ := hs
  have hd := hw.dress_eq hs₀ hs hu
  have hnone := hs.release hs₀ hu (hd ▸ hreached)
  split
  case isTrue hforward =>
    obtain ⟨v, hv⟩ := Option.isSome_iff_exists.mp (hshelter hforward)
    have hsource : s₀.source? u ft = some v := by rw [source?, if_pos hforward, hv]
    obtain ⟨c, hc, hin⟩ := mem_walkAll_iff.mp (List.mem_of_find?_eq_some hv)
    have hbegun : ¬ (v.dressed d).status < .resolving := by
      rw [dressed_status]
      refine hs.begun u hu ?_ v (.inner hc hin)
      rw [hd]
      exact Nat.lt_irrefl _
    rw [map_eq_pure_bind]
    refine .bind (Q := fun k s' => s' = s ∧ k = v.id) ?_ ?_
    · obtain ⟨t, ht, hid, -⟩ := hw
      have htype := hs.eq_dressed hs₀ hu ht hid
      simp only [Finder.processing, findNested, bind_assoc]
      rw [← hid]
      refine Discipline.typeOf_bind (hid ▸ ⟨d, hs⟩) ht ?_
      simp only [htype, nested?_dressed, hv, Option.map_some, pure_bind, if_neg hbegun]
      exact .pure (by rw [dressed_id]; exact ⟨d, hs⟩) ⟨rfl, dressed_id d v⟩
    · rintro k s' hs' - ⟨rfl, rfl⟩
      refine .pure hs' ⟨⟨d, hnone⟩, hw, by rw [hsource, Option.map_some], fun v' hv' => ?_⟩
      obtain rfl := Option.some.inj (hsource.symm.trans hv')
      exact ⟨_, hs.dressed.holds (hu.within (.inner hc hin)), dressed_id d v, hbegun⟩
  case isFalse hforward =>
    have hsource : s₀.source? u ft =
        s₀.lookup? ft.qname fun t => ft.reference == 0 || t.id == ft.reference := by
      rw [source?, if_neg hforward]
    refine wp_mono (hprocess.lookup ⟨d, hnone⟩ hn (fun _ => rfl) ft.qname rounds) ?_ ?_
    · rintro r s' ⟨⟨d', hs'⟩, hp, hr⟩
      rw [hs'.dressed.lookup? hs₀.sound ft.qname fun t => by rw [dressed_id], ← hsource] at hr
      refine ⟨⟨d', hs'.of_none _⟩, hp.of_none _, ⟨d', hs'⟩, hw.proceeds hp, ?_, fun v hv => ?_⟩
      · generalize hmap : (s₀.source? u ft).map (SchemaType.dressed d') = found at hr
        cases hr with
        | none => rw [Option.map_eq_none_iff.mp hmap, Option.map_none]
        | some hbegun =>
          obtain ⟨v, hv, rfl⟩ := Option.map_eq_some_iff.mp hmap
          rw [hv, Option.map_some, dressed_id]
      · rw [hv, Option.map_some] at hr
        cases hr with
        | some hbegun =>
          exact ⟨_, hs'.dressed.holds (source?_holds hs₀.sound hu hv), dressed_id d' v, hbegun⟩
    · exact fun _ _ hfails => hfails.1.elim

/-- What is found counts as an enumeration, and with the members, that it is in the end. -/
theorem Sourced.enum {r : Option Handle} (h : Sourced hs₀ u fs ft r s) (hu : s₀.Holds u)
    (hv : s₀.source? u ft = some v) : ∃ t, s.Holds t ∧ t.id = v.id ∧ t.qname = v.qname ∧
      t.isEnumeration = (s₀.memberType v).isEnumeration ∧
      (t.isEnumeration = true → t.fields = (s₀.memberType v).fields) := by
  obtain ⟨d, hs⟩ := h.inv
  obtain ⟨t, ht, hid, hbegun⟩ := h.begun v hv
  have hheld := source?_holds hs₀.sound hu hv
  obtain rfl := hs.eq_dressed hs₀ hheld ht hid
  have henum := (hs.reached v hheld (Option.some_ne_none _)).isEnumeration hs₀.steady hheld (t := v.dressed d)
    (by rwa [dressed_status] at hbegun) (dressed_fields d v)
  exact ⟨v.dressed d, ht, hid, dressed_qname d v, henum⟩

namespace BeingChecked

/-- The search for the default of a field that is on its way comes to what `matchDefault` says. -/
theorem runs_matchEnum (rounds : Nat) (hprocess : (resolving hs₀ none).Processes n process)
    (hs : (resolving hs₀ (some u.id)).Inv s) (hn : (s.pending .resolving).length < n)
    (hu : s₀.Holds u) (hfocus : position.Focuses put) (hw : BeingChecked u.id (put f) s)
    (hreached : s₀.Reached u (put f, .resolving))
    (hshelter : ∀ ft ∈ f.types, ft.forward = true → (u.nested? ft.qname).isSome)
    (sofar : EnumMatch) (pre post : List FieldType) (htypes : f.types = pre ++ post) :
    (resolving hs₀ (some u.id)).conduct.Runs
      (matchEnum (.processing .resolving (rounds + 2) process) u.id position sofar
        (List.range' pre.length post.length)) s fun r s' =>
      r = (s₀.matchDefault u f sofar post).1 ∧
        BeingChecked u.id (put { f with defaultEnum := (s₀.matchDefault u f sofar post).2 }) s' := by
  induction post generalizing s sofar pre with
  | nil => exact .pure hs ⟨rfl, by rwa [matchDefault, Field.withDefaultEnum_eq rfl]⟩
  | cons ft post ih =>
    have hget : f.types[pre.length]?.getD {} = ft := by simp [htypes]
    have hrest : ∀ {s₁} sofar, (resolving hs₀ (some u.id)).Inv s₁ → Proceeds (some u.id) s s₁ →
        BeingChecked u.id (put f) s₁ → (resolving hs₀ (some u.id)).conduct.Runs
          (matchEnum (.processing .resolving (rounds + 2) process) u.id position sofar
            (List.range' (pre.length + 1) post.length)) s₁ fun r s' =>
          r = (s₀.matchDefault u f sofar post).1 ∧
            BeingChecked u.id (put { f with defaultEnum := (s₀.matchDefault u f sofar post).2 }) s' := by
      intro s₁ sofar hs₁ hp hw₁
      have hn₁ := (resolving hs₀ (some u.id)).length_pending_lt hs₁ hp hn
      have hend := ih hs₁ hn₁ hw₁ sofar (pre ++ [ft]) (by rw [htypes, List.append_assoc]; rfl)
      rwa [List.length_append] at hend
    rw [List.length_cons, List.range'_succ, matchEnum, matchDefault]
    refine runs_fieldAt_bind hs hw ?_
    rw [hfocus.read, hget]
    dsimp only
    split
    case isTrue => exact hrest sofar hs (Proceeds.of_roots rfl) hw
    case isFalse =>
      have hsource := runs_source rounds hprocess hs hn hu hw hreached
        (hshelter ft (htypes ▸ List.mem_append_right _ List.mem_cons_self))
      refine .ite_bind (.bind hsource fun r s₁ hs₁ hp hfound => ?_)
      have hw₁ := hfound.working
      cases hv : s₀.source? u ft with
      | none =>
        obtain rfl : r = none := by rw [hfound.result, hv, Option.map_none]
        exact hrest sofar hs₁ hp hw₁
      | some v =>
        obtain rfl : r = some v.id := by rw [hfound.result, hv, Option.map_some]
        obtain ⟨enum, henum, hid, hqname, hsame', hmembers⟩ := hfound.enum hu hv
        dsimp only
        rw [← hid]
        refine Discipline.typeOf_bind hs₁ henum (runs_fieldAt_bind hs₁ hw₁ ?_)
        rw [hfocus.read, ← hsame']
        split
        case isTrue => exact hrest sofar hs₁ hp hw₁
        case isFalse hmember =>
          rw [Bool.not_eq_true', Bool.not_eq_false] at hmember
          have hfields := hmembers hmember
          have htokens : enum.hasAllTokens f.defaultValue = (s₀.memberType v).hasAllTokens f.defaultValue := by
            simp only [hasAllTokens, hfields]
          rw [hfields, htokens]
          split
          · split
            · exact .pure hs₁ ⟨rfl, by rwa [Field.withDefaultEnum_eq rfl]⟩
            · exact hrest .noMember hs₁ hp hw₁
          · cases (s₀.memberType v).fields.find? (·.defaultValue == f.defaultValue) with
            | none => exact hrest .noMember hs₁ hp hw₁
            | some member =>
              refine .bind (runs_updateFieldAt hs₁ hu hfocus hw₁) fun _ s₂ hs₂ _ hw₂ => ?_
              exact .pure hs₂ ⟨rfl, by rwa [hqname, hid] at hw₂⟩

/-- The check of a default makes of a field what `checkedField` says. -/
theorem runs_checkDefault (rounds : Nat) (hprocess : (resolving hs₀ none).Processes n process)
    (hs : (resolving hs₀ (some u.id)).Inv s) (hn : (s.pending .resolving).length < n)
    (hu : s₀.Holds u) (hfocus : position.Focuses put) (hw : BeingChecked u.id (put f) s)
    (hput : f.isEnumeration = false → ∀ g, s₀.Underway u f g → s₀.Reached u (put g, .resolving))
    (hshelter : ∀ ft ∈ f.types, ft.forward = true → (u.nested? ft.qname).isSome) :
    (resolving hs₀ (some u.id)).conduct.Runs
      (checkDefault (.processing .resolving (rounds + 2) process) u.id position) s
      fun _ => BeingChecked u.id (put (s₀.checkedField u f)) := by
  unfold checkDefault checkedField
  refine runs_fieldAt_bind hs hw ?_
  rw [hfocus.read]
  split
  case isTrue => exact .pure hs hw
  case isFalse hmember =>
    rw [Bool.not_eq_true] at hmember
    have htypes := f.types_alignDefault
    have hreached := hput hmember _ (underway_alignDefault hmember)
    refine .bind (runs_updateFieldAt hs hu hfocus hw) fun _ s₁ hs₁ hp₁ hw₁ => ?_
    generalize f.alignDefault = f₁ at htypes hreached hw₁
    refine runs_fieldAt_bind hs₁ hw₁ ?_
    rw [hfocus.read]
    dsimp only
    split
    case isTrue => exact .pure hs₁ hw₁
    case isFalse =>
      have hn₁ := (resolving hs₀ (some u.id)).length_pending_lt hs₁ hp₁ hn
      have hmatch := runs_matchEnum rounds hprocess hs₁ hn₁ hu hfocus hw₁ hreached
        (htypes ▸ hshelter) .noEnumeration [] f₁.types rfl
      rw [List.length_nil, ← List.range_eq_range'] at hmatch
      generalize s₀.matchDefault u f₁ .noEnumeration f₁.types = found at hmatch ⊢
      obtain ⟨result, value⟩ := found
      refine .bind hmatch fun r s₂ hs₂ _ hend => ?_
      obtain ⟨rfl, hw₂⟩ := hend
      cases r with
      | found => exact .pure hs₂ hw₂
      | noMember =>
        refine runs_typeOf_bind hs₂ hw₂ fun t _ _ _ => ?_
        refine .bind (runs_warn hs₂ hw₂ ..) fun _ s₃ hs₃ _ hw₃ => ?_
        exact runs_updateFieldAt hs₃ hu hfocus hw₃
      | noEnumeration =>
        refine runs_fieldAt_bind hs₂ hw₂ ?_
        rw [hfocus.read]
        dsimp only
        split
        case isTrue =>
          refine runs_typeOf_bind hs₂ hw₂ fun t _ _ _ => ?_
          refine .bind (runs_warn hs₂ hw₂ ..) fun _ s₃ hs₃ _ hw₃ => ?_
          exact runs_updateFieldAt hs₃ hu hfocus hw₃
        case isFalse => exact .pure hs₂ hw₂

theorem runs_checkChoices (rounds : Nat) (hprocess : (resolving hs₀ none).Processes n process)
    (hs : (resolving hs₀ (some u.id)).Inv s) (hn : (s.pending .resolving).length < n)
    (hu : s₀.Holds u) (before after : List Field) (cs cs' : List Field)
    (hw : BeingChecked u.id (before ++ { f with choices := cs ++ cs' } :: after) s)
    (hput : cs' ≠ [] → ∀ choices, s₀.Reached u (before ++ { f with choices } :: after, .resolving))
    (hshelter : ∀ c ∈ cs', ∀ ft ∈ c.types, ft.forward = true → (u.nested? ft.qname).isSome) :
    (resolving hs₀ (some u.id)).conduct.Runs
      (checkChoices (.processing .resolving (rounds + 2) process) u.id before.length
        (List.range' cs.length cs'.length)) s fun _ =>
      BeingChecked u.id (before ++ { f with choices := cs ++ cs'.map (s₀.checkedField u) } :: after) := by
  induction cs' generalizing s cs with
  | nil => exact .pure hs hw
  | cons c cs' ih =>
    obtain ⟨hc, hcs⟩ := List.forall_mem_cons.mp hshelter
    have hreached := hput (List.cons_ne_nil c cs')
    have hcheck := runs_checkDefault rounds hprocess hs hn hu
      (FieldPosition.focuses_choice before after f cs cs') hw (fun _ c' _ => hreached _) hc
    refine .bind hcheck fun _ s₁ hs₁ hp₁ hw₁ => ?_
    have hn₁ := (resolving hs₀ (some u.id)).length_pending_lt hs₁ hp₁ hn
    have hrest := ih hs₁ hn₁ (cs ++ [s₀.checkedField u c]) (by rwa [List.append_assoc])
      (fun _ => hreached) hcs
    rwa [List.length_append, List.append_assoc] at hrest

theorem runs_checkFields (rounds : Nat) (hprocess : (resolving hs₀ none).Processes n process)
    (hs : (resolving hs₀ (some u.id)).Inv s) (hn : (s.pending .resolving).length < n)
    (hu : s₀.Holds u) (first before after : List Field) (hfields : u.fields = first ++ after)
    (hbefore : List.Forall₂ (s₀.Underway u) first before) (hw : BeingChecked u.id (before ++ after) s) :
    (resolving hs₀ (some u.id)).conduct.Runs
      (checkFields (.processing .resolving (rounds + 2) process) u.id
        (List.range' before.length after.length)) s fun _ =>
      BeingChecked u.id (before ++ after.map (s₀.checkedWhole u)) := by
  induction after generalizing s first before with
  | nil => exact .pure hs hw
  | cons f after ih =>
    have hf : f ∈ u.fields := hfields ▸ List.mem_append_right _ List.mem_cons_self
    have hrefers : ∀ ft, f.Refers ft → ft.forward = true → (u.nested? ft.qname).isSome := fun ft hft =>
      hs₀.sheltered u hu ft (mem_fieldTypes_iff.mpr (.inl ⟨f, hf, hft⟩))
    have hreached : u.hasEnumerations = false → ∀ g, s₀.Underway u f g →
        s₀.Reached u (before ++ g :: after, .resolving) := by
      intro hmembers g hg
      refine .busy hmembers ?_
      rw [hfields]
      exact List.rel_append hbefore (.cons hg (List.forall₂_same.mpr fun f _ => .refl s₀ u f))
    have hnone : f.isEnumeration = false ∨ f.choices ≠ [] → u.hasEnumerations = false := by
      refine fun hor => Bool.eq_false_iff.mpr fun hmembers => ?_
      obtain ⟨henum, hchoices⟩ := hs₀.steady.members u hu hmembers f hf
      exact hor.elim (fun hnot => absurd henum (Bool.not_eq_true _ ▸ hnot)) fun hne => hne hchoices
    rw [List.length_cons, List.range'_succ, checkFields]
    -- first the default of the field itself, then those of its choices
    have hcheck := runs_checkDefault rounds hprocess hs hn hu
      (FieldPosition.focuses_field before after) hw (fun hnot => hreached (hnone (.inl hnot)))
      fun ft hft => hrefers ft (.own hft)
    refine .bind hcheck fun _ s₁ hs₁ hp₁ hw₁ => ?_
    have hn₁ := (resolving hs₀ (some u.id)).length_pending_lt hs₁ hp₁ hn
    have hchoices : (s₀.checkedField u f).choices = f.choices := (s₀.akin_checkedField u f).choices
    rw [← Field.withChoices_eq hchoices, ← List.nil_append f.choices] at hw₁
    have hchecks := runs_checkChoices rounds hprocess hs₁ hn₁ hu before after [] f.choices
      hw₁ (fun hne choices =>
        hreached (hnone (.inr hne)) _ ((underway_checkedField s₀ u f).withChoices choices))
      fun c hc ft hft => hrefers ft (.choice hc (.own hft))
    rw [List.length_nil, ← List.range_eq_range', List.nil_append] at hchecks
    refine runs_fieldOf_bind hs₁ hw₁ ?_
    have hcount : ((before ++ { s₀.checkedField u f with choices := [] ++ f.choices } ::
        after)[before.length]?.getD {}).choices = f.choices := by simp
    rw [hcount]
    refine .bind hchecks fun _ s₂ hs₂ hp₂ hw₂ => ?_
    have hn₂ := (resolving hs₀ (some u.id)).length_pending_lt hs₂ hp₂ hn₁
    have hunderway : s₀.Underway u f (s₀.checkedWhole u f) :=
      (underway_checkedField s₀ u f).withChoices _
    have hrest := ih hs₂ hn₂ (first ++ [f]) (before ++ [s₀.checkedWhole u f])
      (by rw [hfields, List.append_assoc]; rfl) (List.rel_append hbefore (.cons hunderway .nil))
      (by rw [List.append_assoc, checkedWhole, hchoices]; exact hw₂)
    rwa [List.length_append, List.append_assoc] at hrest

/-- The check of the defaults of a type makes of its fields what is to become of them. -/
theorem runs_checkDefaults (rounds : Nat) (hprocess : (resolving hs₀ none).Processes n process)
    (hs : (resolving hs₀ (some u.id)).Inv s) (hn : (s.pending .resolving).length < n)
    (hu : s₀.Holds u) (hw : BeingChecked u.id u.fields s) :
    (resolving hs₀ (some u.id)).conduct.Runs
      (checkDefaults (.processing .resolving (rounds + 2) process) u.id) s fun _ =>
      BeingChecked u.id (u.fields.map (s₀.checkedWhole u)) := by
  refine runs_typeOf_bind hs hw fun t _ _ ht => ?_
  rw [ht, List.range_eq_range']
  exact runs_checkFields rounds hprocess hs hn hu [] [] u.fields rfl .nil hw

end BeingChecked

end Schemata
