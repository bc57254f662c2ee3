import Mathlib.Algebra.Group.Nat.Defs
import Schemata.Proofs.Model.Updates
import Schemata.Step.Engine

/-!
# What holds when a computation ends

`wp x Q E s` says how the computation `x` ends when it starts with the store `s`: with a value and a
store that satisfy `Q`, or with a failure and a store that satisfy `E`. There is no third way, since
computations come to an end by construction.

A `Conduct` says what is to be true of every store on the way, where a computation may lead and how it
may fail. `C.Runs x s Q` says that `x` keeps to it when it starts with `s`, and that `Q` holds in the
end; what holds of the parts of a computation holds of the whole.
-/

namespace Schemata.Compile

variable {α β : Type} {x : Compile α} {f : α → Compile β} {Q Q' : α → Store → Prop}
  {E E' : Failure → Store → Prop} {s : Store}

-- irreducible, so that no tactic runs the computation in a goal
@[irreducible] def wp (x : Compile α) (Q : α → Store → Prop) (E : Failure → Store → Prop)
    (s : Store) : Prop :=
  match x.run.run s with
  | (.ok a, s') => Q a s'
  | (.error f, s') => E f s'

instance [∀ a s', Decidable (Q a s')] [∀ f s', Decidable (E f s')] : Decidable (wp x Q E s) :=
  match h : x.run.run s with
  | (.ok a, s') => decidable_of_iff (Q a s') (by rw [wp, h])
  | (.error f, s') => decidable_of_iff (E f s') (by rw [wp, h])

@[simp] theorem wp_pure {a : α} : wp (pure a) Q E s ↔ Q a s := by
  rw [wp]
  rfl

@[simp] theorem wp_throw {e : Failure} : wp (throw e) Q E s ↔ E e s := by
  rw [wp]
  rfl

@[simp] theorem wp_get {Q : Store → Store → Prop} : wp get Q E s ↔ Q s s := by
  rw [wp]
  rfl

@[simp] theorem wp_modify {g : Store → Store} {Q : Unit → Store → Prop} :
    wp (modify g) Q E s ↔ Q () (g s) := by
  rw [wp]
  rfl

@[simp] theorem wp_modifyGet {g : Store → α × Store} :
    wp (modifyGet g) Q E s ↔ Q (g s).1 (g s).2 := by
  rw [wp]
  rfl

@[simp] theorem wp_update {h : Handle} {g : SchemaType → SchemaType} {Q : Unit → Store → Prop} :
    wp (update h g) Q E s ↔ Q () (s.update h g) := by
  rw [wp]
  rfl

@[simp] theorem wp_bind {Q : β → Store → Prop} :
    wp (x >>= f) Q E s ↔ wp x (fun a => wp (f a) Q E) E s := by
  unfold wp
  simp only [ExceptT.run_bind, StateT.run_bind]
  rcases hx : x.run.run s with ⟨_ | _, _⟩
  · rfl
  · rfl

@[simp] theorem wp_tryCatch {handle : Failure → Compile α} :
    wp (tryCatch x handle) Q E s ↔ wp x Q (fun e => wp (handle e) Q E) s := by
  unfold wp
  rw [ExceptT.run_tryCatch, StateT.run_bind]
  rcases hx : x.run.run s with ⟨_ | _, _⟩
  · rfl
  · rfl

/-- A computation that begins in one of two ways. -/
theorem wp_ite_bind {c : Prop} [Decidable c] {x' : Compile α} {Q : β → Store → Prop} :
    wp (if c then x >>= f else x' >>= f) Q E s ↔
      wp (if c then x else x') (fun a => wp (f a) Q E) E s := by
  split
  · exact wp_bind
  · exact wp_bind

theorem wp_mono (h : wp x Q E s) (hQ : ∀ a s', Q a s' → Q' a s') (hE : ∀ e s', E e s' → E' e s') :
    wp x Q' E' s := by
  unfold wp at h ⊢
  rcases hx : x.run.run s with ⟨_ | _, _⟩
  · rw [hx] at h
    exact hE _ _ h
  · rw [hx] at h
    exact hQ _ _ h

theorem wp_of_forall (hQ : ∀ a s', Q a s') (hE : ∀ e s', E e s') : wp x Q E s := by
  unfold wp
  rcases x.run.run s with ⟨_ | _, _⟩
  · exact hE _ _
  · exact hQ _ _

theorem wp_and (h : wp x Q E s) (h' : wp x Q' E' s) :
    wp x (fun a s' => Q a s' ∧ Q' a s') (fun e s' => E e s' ∧ E' e s') s := by
  unfold wp at h h' ⊢
  rcases hx : x.run.run s with ⟨_ | _, _⟩
  · rw [hx] at h h'
    exact ⟨h, h'⟩
  · rw [hx] at h h'
    exact ⟨h, h'⟩

theorem wp_typeOf {h : Handle} {t : SchemaType} {Q : SchemaType → Store → Prop}
    (ht : s.get? h = some t) : wp (typeOf h) Q E s ↔ Q t s := by
  unfold typeOf
  simp [ht]

/-- Diagnostics are recorded, and nothing else happens. -/
theorem wp_forM_record {Q : Unit → Store → Prop} (notes : List Diagnostic)
    (hQ : ∀ journal, Q () { s with journal }) :
    wp (notes.forM fun d => modify (·.record (.noted d))) Q E s := by
  induction notes generalizing s with
  | nil =>
    rw [List.forM_eq_forM, List.forM_nil, wp_pure]
    exact hQ s.journal
  | cons d notes ih =>
    rw [List.forM_eq_forM, List.forM_cons, wp_bind, wp_modify]
    exact ih hQ

/-- A pass that changes a type and records notes, on a type that is there. -/
theorem wp_noting {g : Store → SchemaType → SchemaType × List Diagnostic} {rounds : Nat}
    {finder : Finder} {Q : Unit → Store → Prop} {h : Handle} {t : SchemaType} (ht : s.get? h = some t)
    (hQ : ∀ journal, Q () { s.update h fun _ => (g s t).1 with journal }) :
    wp ((Pass.noting g).run rounds finder h) Q E s := by
  unfold Pass.noting
  rw [wp_bind, wp_get, wp_bind, wp_typeOf ht, wp_bind, wp_update]
  exact wp_forM_record _ hQ

/-- One round over a tree works on what is pending in it. -/
theorem applyTree_succ {busy : Status} {apply : Handle → Compile Unit} {h : Handle} (rounds : Nat) :
    applyTree busy apply h (rounds + 1) = (do
      let t ← typeOf h
      if (t.pending busy).isEmpty then pure ()
      else
        applyPending busy apply (t.pending busy).reverse
        applyTree busy apply h rounds) :=
  rfl

theorem applyPending_append {busy : Status} {apply : Handle → Compile Unit} (hs hs' : List Handle) :
    applyPending busy apply (hs ++ hs') =
      applyPending busy apply hs >>= fun _ => applyPending busy apply hs' := by
  induction hs with
  | nil => simp [applyPending]
  | cons h hs ih =>
    simp only [List.cons_append, applyPending, ih, bind_assoc]
    congr 1
    funext t
    split
    · simp only [bind_assoc]
    · rfl

/-- A step runs within a bound that leaves room for every type, and for every way along them. -/
theorem wp_run {step : Step} {cancelled : Bool} {Q : Unit → Store → Prop}
    (h : ∀ bound, s.weight + 16 < bound → 2 ^ s.weight + 2 ≤ bound →
      wp (step.runWithin bound cancelled) Q E s) :
    wp (step.run cancelled) Q E s := by
  have hbound : s.weight + 16 < s.bound := Nat.lt_two_pow_self
  have hways : 2 ^ s.weight + 2 ≤ s.bound := by
    have hpos : 0 < 2 ^ s.weight := Nat.two_pow_pos _
    have heq : s.bound = 2 ^ s.weight * 2 ^ 16 := Nat.pow_add 2 s.weight 16
    omega
  rw [Step.run, wp_bind, wp_get]
  generalize s.bound = bound at hbound hways
  exact h bound hbound hways

end Schemata.Compile

-- ---------------------------------------------------------------------------
-- Conducts
-- ---------------------------------------------------------------------------

namespace Schemata

open Compile

structure Conduct where
  Inv : Store → Prop
  Leads : Store → Store → Prop
  Fails : Store → Failure → Store → Prop
  refl : ∀ s, Leads s s
  trans : ∀ {s s' s''}, Leads s s' → Leads s' s'' → Leads s s''
  fails : ∀ {s s' s'' f}, Leads s s' → Fails s' f s'' → Fails s f s''

namespace Conduct

variable {α β γ : Type} {C D : Conduct} {x : Compile α} {f : α → Compile β} {Q : α → Store → Prop}
  {Q' : β → Store → Prop} {s : Store} {h : Handle} {t : SchemaType} {i : Nat}

/-- The computation keeps to the conduct, and `Q` holds in the end. -/
def Runs (C : Conduct) (x : Compile α) (s : Store) (Q : α → Store → Prop) : Prop :=
  wp x (fun a s' => C.Inv s' ∧ C.Leads s s' ∧ Q a s') (C.Fails s) s

namespace Runs

theorem pure {a : α} (hs : C.Inv s) (ha : Q a s) : C.Runs (Pure.pure a) s Q := by
  unfold Runs
  rw [wp_pure]
  exact ⟨hs, C.refl s, ha⟩

theorem throw {e : Failure} (he : C.Fails s e s) : C.Runs (MonadExcept.throw e : Compile α) s Q := by
  unfold Runs
  rwa [wp_throw]

theorem bind (hx : C.Runs x s Q)
    (hf : ∀ a s', C.Inv s' → C.Leads s s' → Q a s' → C.Runs (f a) s' Q') :
    C.Runs (x >>= f) s Q' := by
  unfold Runs
  rw [wp_bind]
  refine wp_mono hx ?_ fun _ _ hfails => hfails
  rintro a s' ⟨hs', hleads, ha⟩
  refine wp_mono (hf a s' hs' hleads ha) ?_ fun _ _ hfails => C.fails hleads hfails
  rintro b s'' ⟨hs'', hleads', hb⟩
  exact ⟨hs'', C.trans hleads hleads', hb⟩

/-- What follows a case distinction follows either case. -/
theorem ite_bind {c : Prop} [Decidable c] {y : Compile α}
    (h : C.Runs ((if c then x else y) >>= f) s Q') :
    C.Runs (if c then x >>= f else y >>= f) s Q' := by
  split
  case isTrue hc => rwa [if_pos hc] at h
  case isFalse hc => rwa [if_neg hc] at h

theorem mono {Q Q' : α → Store → Prop} (hx : C.Runs x s Q)
    (hQ : ∀ a s', C.Inv s' → C.Leads s s' → Q a s' → Q' a s') : C.Runs x s Q' := by
  refine wp_mono hx ?_ fun _ _ hfails => hfails
  rintro a s' ⟨hs', hleads, ha⟩
  exact ⟨hs', hleads, hQ a s' hs' hleads ha⟩

/-- What keeps to one conduct keeps to another that allows all it leads to. -/
theorem under (hx : C.Runs x s Q) (hfails : ∀ {f s'}, C.Fails s f s' → D.Fails s f s')
    (hend : ∀ s', C.Inv s' → C.Leads s s' → D.Inv s' ∧ D.Leads s s') :
    D.Runs x s fun a s' => Q a s' ∧ C.Leads s s' := by
  refine wp_mono hx ?_ fun _ _ => hfails
  rintro a s' ⟨hs', hleads, ha⟩
  obtain ⟨hinv, hleads'⟩ := hend s' hs' hleads
  exact ⟨hinv, hleads', ha, hleads⟩

theorem get_bind {f : Store → Compile β} (hf : C.Runs (f s) s Q') : C.Runs (get >>= f) s Q' := by
  unfold Runs
  rw [wp_bind, wp_get]
  exact hf

theorem modify {g : Store → Store} {Q : Unit → Store → Prop} (hs : C.Inv (g s))
    (hleads : C.Leads s (g s)) (hQ : Q () (g s)) : C.Runs (modify g) s Q := by
  unfold Runs
  rw [wp_modify]
  exact ⟨hs, hleads, hQ⟩

theorem update {g : SchemaType → SchemaType} {Q : Unit → Store → Prop}
    (hs : C.Inv (s.update h g)) (hleads : C.Leads s (s.update h g)) (hQ : Q () (s.update h g)) :
    C.Runs (update h g) s Q :=
  modify hs hleads hQ

theorem typeOf_bind {f : SchemaType → Compile β}
    (hf : ∀ t, s.get? h = some t → C.Runs (f t) s Q')
    (hmissing : s.get? h = none → C.Fails s { cause := .noType h } s) :
    C.Runs (typeOf h >>= f) s Q' := by
  unfold typeOf Runs
  simp only [wp_bind, wp_get]
  cases hget : s.get? h with
  | none =>
    rw [wp_throw]
    exact hmissing hget
  | some t =>
    rw [wp_pure]
    exact hf t hget

theorem typeOf_bind_found {f : SchemaType → Compile β} (ht : s.get? h = some t)
    (hf : C.Runs (f t) s Q') : C.Runs (typeOf h >>= f) s Q' := by
  refine typeOf_bind (fun u hu => ?_) fun hnone => nomatch ht.symm.trans hnone
  rwa [← Option.some.inj (ht.symm.trans hu)]

theorem fieldOf_bind {f : Field → Compile β}
    (hf : ∀ t, s.get? h = some t → C.Runs (f (t.fields[i]?.getD {})) s Q')
    (hmissing : s.get? h = none → C.Fails s { cause := .noType h } s) :
    C.Runs (fieldOf h i >>= f) s Q' := by
  unfold fieldOf
  rw [bind_assoc]
  refine typeOf_bind (fun t ht => ?_) hmissing
  rw [pure_bind]
  exact hf t ht

theorem fieldOf_bind_found {f : Field → Compile β} (ht : s.get? h = some t)
    (hf : C.Runs (f (t.fields[i]?.getD {})) s Q') : C.Runs (fieldOf h i >>= f) s Q' := by
  refine fieldOf_bind (fun u hu => ?_) fun hnone => nomatch ht.symm.trans hnone
  rwa [← Option.some.inj (ht.symm.trans hu)]

/-- A failure of a pass is passed on, with its cause if the type is there. -/
theorem runPasses_cons {place : String} {rounds : Nat} {finder : Finder} {pass : Pass}
    {rest : List Pass} {Q Q' : Unit → Store → Prop}
    (hwithin : ∀ {f s'}, C.Fails s f s' → ∀ place, C.Fails s (f.within place) s')
    (hmissing : ∀ {f s'}, C.Fails s f s' → s'.get? h = none → C.Fails s { cause := .noType h } s')
    (hpass : C.Runs (pass.run rounds finder h) s Q)
    (hrest : ∀ s', C.Inv s' → C.Leads s s' → Q () s' →
      C.Runs (runPasses place rounds finder h rest) s' Q') :
    C.Runs (runPasses place rounds finder h (pass :: rest)) s Q' := by
  rw [Schemata.runPasses]
  refine bind (Q := Q) ?_ fun _ => hrest
  unfold Runs
  rw [wp_tryCatch]
  refine wp_mono hpass (fun _ _ hend => hend) fun f s' hfails => ?_
  unfold typeOf
  simp only [wp_bind, wp_get]
  cases hget : s'.get? h with
  | none =>
    rw [wp_throw]
    exact hmissing hfails hget
  | some t =>
    rw [wp_pure, wp_throw]
    exact hwithin (hwithin hfails _) _

/-- A loop over a list, with what holds between its rounds. -/
theorem forM {g : γ → Compile Unit} {J : Store → Prop} (xs : List γ)
    (hg : ∀ x ∈ xs, ∀ s, C.Inv s → J s → C.Runs (g x) s fun _ => J) (hs : C.Inv s) (hJ : J s) :
    C.Runs (xs.forM g) s fun _ => J := by
  induction xs generalizing s with
  | nil => exact .pure hs hJ
  | cons x xs ih =>
    obtain ⟨hx, hxs⟩ := List.forall_mem_cons.mp hg
    rw [List.forM_eq_forM, List.forM_cons]
    exact .bind (hx s hs hJ) fun _ s' hs' _ hJ' => ih hxs hs' hJ'

section MapTypes

variable {P : Store → FieldType → Prop} {J : Store → Prop} {g : FieldType → Compile FieldType}

theorem mapM (hP : ∀ {s s'} ft, C.Leads s s' → P s ft → P s' ft)
    (hg : ∀ ft s, C.Inv s → J s → P s ft → C.Runs (g ft) s fun ft' s' => J s' ∧ P s' ft')
    (fts : List FieldType) (hs : C.Inv s) (hJ : J s) (hfts : ∀ ft ∈ fts, P s ft) :
    C.Runs (fts.mapM g) s fun fts' s' => J s' ∧ ∀ ft ∈ fts', P s' ft := by
  induction fts generalizing s with
  | nil => exact .pure hs ⟨hJ, nofun⟩
  | cons ft fts ih =>
    obtain ⟨hft, hfts⟩ := List.forall_mem_cons.mp hfts
    rw [List.mapM_cons]
    refine .bind (hg ft s hs hJ hft) fun ft' s' hs' hleads hft' => ?_
    refine .bind (ih hs' hft'.1 fun a ha => hP a hleads (hfts a ha))
      fun fts' s'' hs'' hleads' hfts' => .pure hs'' ⟨hfts'.1, ?_⟩
    exact List.forall_mem_cons.mpr ⟨hP ft' hleads' hft'.2, hfts'.2⟩

mutual

/-- What holds of every type of a field, choices included, holds when an action has changed each of
them; the field stays what it is. -/
theorem mapTypesM (hP : ∀ {s s'} ft, C.Leads s s' → P s ft → P s' ft)
    (hg : ∀ ft s, C.Inv s → J s → P s ft → C.Runs (g ft) s fun ft' s' => J s' ∧ P s' ft') :
    (f : Field) → {s : Store} → C.Inv s → J s → (∀ ft ∈ f.allTypes, P s ft) →
      C.Runs (f.mapTypesM g) s fun f' s' =>
        J s' ∧ (∀ ft ∈ f'.allTypes, P s' ft) ∧ f'.name = f.name ∧ f'.tag = f.tag
  | ⟨_, _, _, _, types, choices, _, _, _, _, _, _, _, _, _⟩, s, hs, hJ, hf => by
    obtain ⟨htypes, hchoices⟩ := List.forall_mem_append.mp hf
    rw [Field.mapTypesM]
    refine .bind (mapM hP hg types hs hJ htypes) fun types' s' hs' hleads htypes' => ?_
    refine .bind (mapTypesOfM hP hg choices hs' htypes'.1 fun a ha => hP a hleads (hchoices a ha))
      fun choices' s'' hs'' hleads' hchoices' => .pure hs'' ⟨hchoices'.1, ?_, rfl, rfl⟩
    exact List.forall_mem_append.mpr ⟨fun a ha => hP a hleads' (htypes'.2 a ha), hchoices'.2⟩

theorem mapTypesOfM (hP : ∀ {s s'} ft, C.Leads s s' → P s ft → P s' ft)
    (hg : ∀ ft s, C.Inv s → J s → P s ft → C.Runs (g ft) s fun ft' s' => J s' ∧ P s' ft') :
    (fs : List Field) → {s : Store} → C.Inv s → J s → (∀ ft ∈ Field.allTypesOf fs, P s ft) →
      C.Runs (Field.mapTypesOfM g fs) s fun fs' s' => J s' ∧ ∀ ft ∈ Field.allTypesOf fs', P s' ft
  | [], _, hs, hJ, _ => .pure hs ⟨hJ, nofun⟩
  | f :: fs, s, hs, hJ, hall => by
    obtain ⟨hf, hfs⟩ := List.forall_mem_append.mp hall
    rw [Field.mapTypesOfM]
    refine .bind (mapTypesM hP hg f hs hJ hf) fun f' s' hs' hleads hf' => ?_
    refine .bind (mapTypesOfM hP hg fs hs' hf'.1 fun a ha => hP a hleads (hfs a ha))
      fun fs' s'' hs'' hleads' hfs' => .pure hs'' ⟨hfs'.1, ?_⟩
    exact List.forall_mem_append.mpr ⟨fun a ha => hP a hleads' (hf'.2.1 a ha), hfs'.2⟩

end

theorem mapTypesM_of_forall (hg : ∀ ft s, C.Inv s → J s → C.Runs (g ft) s fun _ => J) (f : Field)
    (hs : C.Inv s) (hJ : J s) :
    C.Runs (f.mapTypesM g) s fun f' s' => J s' ∧ f'.name = f.name ∧ f'.tag = f.tag := by
  have hmap := mapTypesM (P := fun _ _ => True) (fun _ _ htrue => htrue)
    (fun ft s hs hJ _ => (hg ft s hs hJ).mono fun _ _ _ _ hJ' => ⟨hJ', trivial⟩) f hs hJ
    fun _ _ => trivial
  exact hmap.mono fun _ _ _ _ hf => ⟨hf.1, hf.2.2⟩

end MapTypes

end Runs

end Conduct

end Schemata
