import Schemata.Proofs.Step.WeakestPre
import Schemata.Proofs.Store.Sound

/-!
# Computations that come to an end

Loops whose length no list gives run within a bound, and a computation that exceeds it fails as
unfinished. A family of computations, one for each bound, ends when from some bound on it has one
outcome, and this is not the failure of being unfinished: a larger bound changes nothing then. What is
run in the course of a computation may be given less and less of the bound, as long as it gets as much
as it needs from some bound on.
-/

namespace Schemata

open Compile

variable {α β : Type} {x y : Nat → Compile α} {f : Nat → α → Compile β} {s s' : Store}
  {P Q : α → Store → Prop} {Q' : β → Store → Prop} {rounds : Nat → Nat}

/-- From some bound on something holds. -/
def Eventually (P : Nat → Prop) : Prop :=
  ∃ N, ∀ n ≥ N, P n

namespace Eventually

variable {P Q : Nat → Prop}

theorem of_forall (hP : ∀ n, P n) : Eventually P :=
  ⟨0, fun n _ => hP n⟩

theorem mono (hP : Eventually P) (hPQ : ∀ n, P n → Q n) : Eventually Q := by
  obtain ⟨N, hN⟩ := hP
  exact ⟨N, fun n hn => hPQ n (hN n hn)⟩

theorem and (hP : Eventually P) (hQ : Eventually Q) : Eventually fun n => P n ∧ Q n := by
  obtain ⟨N, hN⟩ := hP
  obtain ⟨M, hM⟩ := hQ
  exact ⟨max N M, fun n hn => ⟨hN n (Nat.le_trans (Nat.le_max_left N M) hn),
    hM n (Nat.le_trans (Nat.le_max_right N M) hn)⟩⟩

theorem succ (hP : Eventually P) (hPQ : ∀ n, P n → Q (n + 1)) : Eventually Q := by
  obtain ⟨N, hN⟩ := hP
  refine ⟨N + 1, fun n hn => ?_⟩
  obtain ⟨m, rfl⟩ := Nat.exists_eq_add_of_le' (Nat.le_trans (Nat.le_add_left 1 N) hn)
  exact hPQ m (hN m (Nat.le_of_succ_le_succ hn))

end Eventually

/-- The rounds that are left to a loop are as many as it needs, from some bound on. -/
def Ample (rounds : Nat → Nat) : Prop :=
  ∀ needed, Eventually fun n => needed ≤ rounds n

theorem ample_id : Ample fun n => n :=
  fun needed => ⟨needed, fun _ hn => hn⟩

/-- From some bound on the computation ends in one way: with a value and a store that satisfy `Q`, or
with a failure that no larger bound avoids. -/
def Ends (x : Nat → Compile α) (s : Store) (Q : α → Store → Prop) : Prop :=
  ∃ r s', (Eventually fun n => (x n).run.run s = (r, s')) ∧ (∀ a, r = .ok a → Q a s') ∧
    ∀ e : Failure, r = .error e → e.cause ≠ .unfinished

namespace Ends

/-- Whether a computation that does not depend on the bound ends is a matter of its outcome. -/
theorem const {x : Compile α} (hx : wp x Q (fun e _ => e.cause ≠ .unfinished) s) :
    Ends (fun _ => x) s Q := by
  unfold wp at hx
  rcases hrun : x.run.run s with ⟨e | a, s'⟩
  · rw [hrun] at hx
    exact ⟨.error e, s', .of_forall fun _ => hrun, nofun, fun _ heq => Except.error.inj heq ▸ hx⟩
  · rw [hrun] at hx
    exact ⟨.ok a, s', .of_forall fun _ => hrun, fun _ heq => Except.ok.inj heq ▸ hx, nofun⟩

theorem pure {a : α} (ha : Q a s) : Ends (fun _ => Pure.pure a) s Q :=
  const (wp_pure.mpr ha)

theorem throw {e : Failure} (he : e.cause ≠ .unfinished) : Ends (fun _ => MonadExcept.throw e) s Q :=
  const (wp_throw.mpr he)

theorem mono (hx : Ends x s P) (hP : ∀ a s', P a s' → Q a s') : Ends x s Q := by
  obtain ⟨r, s', hrun, hok, herror⟩ := hx
  exact ⟨r, s', hrun, fun a ha => hP a s' (hok a ha), herror⟩

theorem congr (hxy : Eventually fun n => x n = y n) (hy : Ends y s Q) : Ends x s Q := by
  obtain ⟨r, s', hrun, hend⟩ := hy
  exact ⟨r, s', (hxy.and hrun).mono fun n hn => by rw [hn.1, hn.2], hend⟩

theorem bind (hx : Ends x s P) (hf : ∀ a s', P a s' → Ends (fun n => f n a) s' Q') :
    Ends (fun n => x n >>= f n) s Q' := by
  obtain ⟨r, s', hrun, hok, herror⟩ := hx
  have hbind : ∀ n, (x n).run.run s = (r, s') →
      (x n >>= f n).run.run s = (match r with
        | .ok a => (f n a).run.run s'
        | .error e => (.error e, s')) := by
    intro n hn
    rw [ExceptT.run_bind, StateT.run_bind, hn]
    cases r with
    | ok a => rfl
    | error e => rfl
  cases r with
  | ok a =>
    obtain ⟨r', s'', hrun', hend⟩ := hf a s' (hok a rfl)
    exact ⟨r', s'', (hrun.and hrun').mono fun n hn => (hbind n hn.1).trans hn.2, hend⟩
  | error e =>
    exact ⟨.error e, s', hrun.mono hbind, nofun, fun _ heq => Except.error.inj heq ▸ herror e rfl⟩

/-- A failure that is reported otherwise is no less of a failure. -/
theorem tryCatch {handle : Failure → Compile α} (hx : Ends x s Q)
    (hhandle : ∀ e s', e.cause ≠ .unfinished →
      wp (handle e) Q (fun e _ => e.cause ≠ .unfinished) s') :
    Ends (fun n => MonadExcept.tryCatch (x n) handle) s Q := by
  obtain ⟨r, s', hrun, hok, herror⟩ := hx
  have htry : ∀ n, (x n).run.run s = (r, s') →
      (MonadExcept.tryCatch (x n) handle).run.run s = (match r with
        | .ok a => (.ok a, s')
        | .error e => (handle e).run.run s') := by
    intro n hn
    rw [ExceptT.run_tryCatch, StateT.run_bind, hn]
    cases r with
    | ok a => rfl
    | error e => rfl
  cases r with
  | ok a => exact ⟨.ok a, s', hrun.mono htry, hok, nofun⟩
  | error e =>
    obtain ⟨r', s'', hrun', hend⟩ := const (hhandle e s' (herror e rfl))
    exact ⟨r', s'', (hrun.and hrun').mono fun n hn => (htry n hn.1).trans hn.2, hend⟩

theorem get_bind {f : Nat → Store → Compile β} (hf : Ends (fun n => f n s) s Q') :
    Ends (fun n => get >>= f n) s Q' :=
  bind (P := fun r s' => r = s ∧ s' = s) (const (wp_get.mpr ⟨rfl, rfl⟩)) fun _ _ h => h.1 ▸ h.2 ▸ hf

theorem typeOf_bind {f : Nat → SchemaType → Compile β} {h : Handle} {t : SchemaType}
    (ht : s.get? h = some t) (hf : Ends (fun n => f n t) s Q') : Ends (fun n => typeOf h >>= f n) s Q' :=
  bind (P := fun r s' => r = t ∧ s' = s) (const ((wp_typeOf ht).mpr ⟨rfl, rfl⟩))
    fun _ _ h => h.1 ▸ h.2 ▸ hf

/-- A loop may take a round. -/
theorem round {x : Nat → Nat → Compile α} (hrounds : Ample rounds)
    (hx : ∀ rest, Ample rest → Ends (fun n => x n (rest n + 1)) s Q) :
    Ends (fun n => x n (rounds n)) s Q := by
  refine congr ((hrounds 1).mono fun n hn => ?_) (hx (fun n => rounds n - 1) fun needed => ?_)
  · rw [Nat.sub_add_cancel hn]
  · exact (hrounds (needed + 1)).mono fun n hn => Nat.le_sub_of_add_le hn

end Ends

-- ---------------------------------------------------------------------------
-- Computations that exceed a bound
-- ---------------------------------------------------------------------------

variable {roots : List Handle} {y : Compile α} {g : α → Compile β} {t : SchemaType} {h : Handle}

/-- The type that is preferred is worked on, if it has not been begun, or found as it is. -/
theorem wp_findPreferred {process : Handle → Compile Unit} {busy : Status} {q : QName} {tag : Tag}
    {Q : Option Handle → Store → Prop} {E : Failure → Store → Prop} (n : Nat)
    (hfound : s.preferred? q tag = some t)
    (hraw : t.status < busy → wp (process t.id) (fun _ _ => False) E s)
    (hbegun : ¬ t.status < busy → Q (some t.id) s) :
    wp ((Finder.processing busy (n + 1) process).findPreferred q tag) Q E s := by
  unfold Finder.findPreferred Store.preferred? at *
  generalize preferences tag = cs at *
  induction cs with
  | nil => cases hfound
  | cons c cs ih =>
    rw [List.findSome?_cons] at hfound
    simp only [Finder.findPreferred.go, Finder.processing, findProcessed, wp_bind, wp_get]
    cases hlookup : s.lookup? q c with
    | none =>
      rw [hlookup] at hfound
      rw [wp_pure]
      exact ih hfound
    | some u =>
      rw [hlookup] at hfound
      obtain rfl := Option.some.inj hfound
      by_cases hlt : u.status < busy
      · simp only [if_pos hlt, wp_bind]
        exact wp_mono (hraw hlt) (fun _ _ hfalse => hfalse.elim) fun _ _ hend => hend
      · simp only [if_neg hlt, wp_pure]
        exact hbegun hlt

/-- The computation exceeds its bound, and leaves a type for each of the given handles in the store. -/
def Exceeds (roots : List Handle) (y : Compile α) (s : Store) : Prop :=
  wp y (fun _ _ => False)
    (fun e s' => e.cause = .unfinished ∧ ∀ k ∈ roots, ∃ t, s'.get? k = some t) s

namespace Exceeds

theorem bind_left (hy : Exceeds roots y s) : Exceeds roots (y >>= g) s := by
  unfold Exceeds at *
  rw [wp_bind]
  exact wp_mono hy (fun _ _ hfalse => hfalse.elim) fun _ _ hend => hend

theorem bind (hy : wp y (fun a => Exceeds roots (g a)) (fun _ _ => False) s) :
    Exceeds roots (y >>= g) s := by
  unfold Exceeds
  rw [wp_bind]
  exact wp_mono hy (fun _ _ hg => hg) fun _ _ hfalse => hfalse.elim

theorem typeOf_bind {g : SchemaType → Compile β} (ht : s.get? h = some t) (hg : Exceeds roots (g t) s) :
    Exceeds roots (typeOf h >>= g) s :=
  bind ((wp_typeOf ht).mpr hg)

theorem fieldOf_bind {g : Field → Compile β} {i : Nat} (ht : s.get? h = some t)
    (hg : Exceeds roots (g (t.fields[i]?.getD {})) s) : Exceeds roots (fieldOf h i >>= g) s := by
  unfold fieldOf
  simp only [bind_assoc, pure_bind]
  exact typeOf_bind ht hg

theorem get_bind {g : Store → Compile β} (hg : Exceeds roots (g s) s) : Exceeds roots (get >>= g) s :=
  bind (wp_get.mpr hg)

theorem findPreferred {process : Handle → Compile Unit} {busy : Status} {q : QName} {tag : Tag} (n : Nat)
    (hfound : s.preferred? q tag = some t) (hlt : t.status < busy) (ht : Exceeds roots (process t.id) s) :
    Exceeds roots ((Finder.processing busy (n + 1) process).findPreferred q tag) s :=
  wp_findPreferred n hfound (fun _ => ht) fun hbegun => absurd hlt hbegun

/-- A failure is reported under the name of the type, as what it is. -/
theorem runPasses {place : String} {n : Nat} {finder : Finder} {pass : Pass} {rest : List Pass}
    (hh : h ∈ roots) (hpass : Exceeds roots (pass.run n finder h) s) :
    Exceeds roots (runPasses place n finder h (pass :: rest)) s := by
  refine bind_left ?_
  unfold Exceeds at *
  rw [wp_tryCatch]
  refine wp_mono hpass (fun _ _ hfalse => hfalse) fun e s' hend => ?_
  obtain ⟨t, ht⟩ := hend.2 h hh
  rw [wp_bind, wp_typeOf ht, wp_throw]
  exact hend

theorem runPasses_cons {place : String} {n : Nat} {finder : Finder} {pass : Pass} {rest : List Pass}
    (hpass : wp (pass.run n finder h) (fun _ => Exceeds roots (Schemata.runPasses place n finder h rest))
      (fun _ _ => False) s) :
    Exceeds roots (Schemata.runPasses place n finder h (pass :: rest)) s := by
  refine bind ?_
  rw [wp_tryCatch]
  exact wp_mono hpass (fun _ _ hrest => hrest) fun _ _ hfalse => hfalse.elim

/-- Passes that keep what leads to the end of it. -/
theorem runPasses_append {place : String} {n : Nat} {finder : Finder} {I : Store → Prop}
    (passes rest : List Pass)
    (hpasses : ∀ pass ∈ passes, ∀ s, I s → wp (pass.run n finder h) (fun _ => I) (fun _ _ => False) s)
    (hrest : ∀ s, I s → Exceeds roots (Schemata.runPasses place n finder h rest) s) (hs : I s) :
    Exceeds roots (Schemata.runPasses place n finder h (passes ++ rest)) s := by
  induction passes generalizing s with
  | nil => exact hrest s hs
  | cons pass passes ih =>
    obtain ⟨hpass, hpasses⟩ := List.forall_mem_cons.mp hpasses
    exact runPasses_cons (wp_mono (hpass s hs) (fun _ _ hs' => ih hpasses hs') fun _ _ hfalse => hfalse)

/-- Work on a root in which nothing is nested. -/
theorem processTree {step : Step} {rounds depth : Nat} (hparallel : step.parallel = false)
    (ht : s.get? h = some t) (hid : t.id = h) (hinner : t.inner = []) (hlt : t.status < step.busy)
    (hpasses : Exceeds roots (Schemata.runPasses step.name (rounds + 1)
      (.processing step.busy (rounds + 1) (step.processTree (rounds + 1) depth)) h step.passes)
      (s.update h fun t => { t with status := step.busy })) :
    Exceeds roots (step.processTree (rounds + 1) (depth + 1) h) s := by
  have hpending : t.pending step.busy = [h] := by
    rw [SchemaType.pending_eq, if_pos hlt, hinner, List.flatMap_nil, List.append_nil, hid]
  rw [Step.processTree, hparallel, applyTree_succ]
  refine typeOf_bind ht ?_
  simp only [hpending, List.isEmpty_cons, Bool.false_eq_true, if_false, List.reverse_singleton, applyPending]
  refine bind_left (typeOf_bind ht ?_)
  rw [if_pos hlt]
  exact bind_left (bind (wp_update.mpr (bind_left hpasses)))

/-- A root that the step has not begun when its turn comes. -/
theorem sweepRoots {step : Step} {bound : Nat} {e : Entry} {rest : List Nat} (hs : s.Sound)
    (he : e ∈ s.roots) (hlt : e.type.status < step.busy)
    (htree : Exceeds roots (step.processTree bound bound e.type.id) s) :
    Exceeds roots (step.sweepRoots bound (e.key :: rest)) s := by
  have htype := Store.typeOfKey?_of_mem hs.keys he
  have hcontains : s.contains e.key = true := by
    simp [Store.contains, htype, hs.byHandle e he]
  refine get_bind ?_
  simp only [htype]
  refine get_bind ?_
  simp only [hlt, hcontains, decide_true, Bool.and_self, Bool.or_true, if_true]
  exact bind_left htree

end Exceeds

end Schemata
