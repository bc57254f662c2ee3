import Schemata.Proofs.Step.Machine
import Schemata.Proofs.Step.Upkeep
import Schemata.Proofs.Store.Whole

/-!
# What a step reaches

While a step runs in sequence, types that are not begun may come to be below a root that is: a handler
gives it new inner types, or a look-up leads to an inner type and from there to its root. No sweep comes
back to such a type. It is not forgotten because a tree on the stack holds it, and the work on a tree ends
only when all in it is begun. The invariant therefore is one of the stack: every task has, further down,
a tree with the types that the task works on.

A failure cuts the work on trees short. What it leaves is not begun, and stays so if a handler goes on after
a look-up has failed. If all handlers pass failures on, such a run never ends well.
-/

namespace Schemata

open Compile SchemaType

namespace Task

variable {busy : Status}

/-- The types that a task is at or will come to. -/
def needs : Task busy → List Handle
  | .tree _ (some (h, _)) => [h]
  | .pending hs => hs
  | .passes h _ => [h]
  | .script h _ => [h]
  | .finish h => [h]
  | _ => []

def tree? : Task busy → Option Handle
  | .tree x _ => some x
  | _ => none

end Task

/-- The trees that are worked on. -/
def trees {busy : Status} (stack : List (Task busy)) : List Handle :=
  stack.filterMap Task.tree?

theorem trees_append {busy : Status} (tasks stack : List (Task busy)) :
    trees (tasks ++ stack) = trees tasks ++ trees stack :=
  List.filterMap_append

theorem trees_cons {busy : Status} (τ : Task busy) (stack : List (Task busy)) :
    trees (τ :: stack) = τ.tree?.toList ++ trees stack := by
  cases h : τ.tree? <;> simp [trees, h]

def Sign.handle : Sign → Handle
  | started h => h
  | handed h => h

/-- The types that handlers have started on. -/
def starts (signs : List Sign) : List Handle :=
  signs.filterMap fun
    | .started h => some h
    | .handed _ => none

theorem mem_starts_iff {signs : List Sign} {h : Handle} : h ∈ starts signs ↔ .started h ∈ signs := by
  rw [starts, List.mem_filterMap]
  constructor
  · rintro ⟨sign, hsign, heq⟩
    cases sign with
    | started k => exact Option.some.inj heq ▸ hsign
    | handed k => cases heq
  · exact fun hsign => ⟨.started h, hsign, rfl⟩

variable {c : Crew} {s s' : Store} {h a : Handle} {t : SchemaType} {busy top : Status} {τ : Task c.busy}
  {stack tasks : List (Task c.busy)} {r : Turn c.busy}

namespace Crew

-- ---------------------------------------------------------------------------
-- What a turn does
-- ---------------------------------------------------------------------------

/-- What a turn comes to. -/
inductive Does (c : Crew) (s : Store) : Task c.busy → Turn c.busy → Prop
  /-- Types stay as they are, and what is left to do concerns no other types than before. -/
  | still {τ : Task c.busy} {tasks : List (Task c.busy)} (memory : Memory) (journal : List Event)
      (hneeds : ∀ σ ∈ tasks, σ.needs ⊆ τ.needs) (htree : τ.tree? = none) :
      Does c s τ { tasks, store := { s with memory, journal } }
  /-- A handler changes what it may change. -/
  | write {h : Handle} {rest next : Script c.busy} {s' : Store}
      (hs' : ∀ {t top}, s.Whole → s.Knows t → t.id = h → s.Evolves c.busy top [h] s') :
      Does c s (.script h rest) { tasks := [.script h next], store := s' }
  /-- A handler gets a type that it has looked up. -/
  | hand {τ : Task c.busy} {signs : List Sign} {tasks : List (Task c.busy)} {t : SchemaType}
      (ht : s.Knows t) (hbegun : ¬ t.status < c.busy) (hsigns : signs = [] ∨ signs = [.handed t.id])
      (hneeds : ∀ σ ∈ tasks, σ.needs ⊆ τ.needs)
      (htree : ∀ x, τ.tree? = some x → t.id = x ∧ t.pending c.busy = []) :
      Does c s τ { signs, tasks, store := s }
  /-- What is not begun in a tree is listed. -/
  | list {x : Handle} {asker : Option (Handle × (Except Failure Handle → Script c.busy))} {t : SchemaType}
      (ht : s.get? x = some t) :
      Does c s (.tree x asker) { tasks := [.pending (t.pending c.busy).reverse, .tree x asker], store := s }
  | start {h : Handle} {hs : List Handle} {t : SchemaType} (ht : s.get? h = some t)
      (hlt : t.status < c.busy) :
      Does c s (.pending (h :: hs)) {
        signs := [.started h]
        tasks := [.passes h c.workers, .finish h, .pending hs]
        store := s.update h fun t => { t with status := c.busy } }
  | finish {h : Handle} : Does c s (.finish h) { store := s.update h fun t => { t with status := c.done } }

theorem Does.idle {tasks : List (Task c.busy)} (hneeds : ∀ σ ∈ tasks, σ.needs ⊆ τ.needs)
    (htree : τ.tree? = none) : c.Does s τ { tasks, store := s } :=
  .still s.memory s.journal hneeds htree

theorem widens_status (st : Status) : Widens (fun t => { t with status := st }) [] where
  id _ := rfl
  inner _ := (List.append_nil _).symm

theorem evolves_setStatus {st : Status} (hs : s.Whole) (ht : s.Knows t) (hstatus : t.status ≤ st)
    (htop : st ≤ top) : s.Evolves busy top [t.id] (s.update t.id fun t => { t with status := st }) :=
  hs.evolves_update (widens_status st) ht (.nil _) hstatus fun _ => htop

theorem evolves_rewrite (hs : s.Whole) (ht : s.Knows t) (g : Rewriting) :
    s.Evolves busy top [t.id] (s.update t.id g.change) := by
  have hg : Widens g.change [] := ⟨g.id, fun t => (g.inner t).trans (List.append_nil _).symm⟩
  refine hs.evolves_update hg ht (.nil _) ?_ ?_
  · rw [g.status]
    exact Nat.le_refl _
  · rw [g.status]
    exact fun htop => htop

theorem evolves_nest (hs : s.Whole) (ht : s.Knows t) (ts : List NewTree) :
    s.Evolves busy top [t.id] (s.nest t.id (ts.map (·.1))) := by
  have hnew : ∀ h ∈ (ts.map (·.1)).flatMap handles, (h == 0) = true := by
    intro h hh
    obtain ⟨u, hu, hh⟩ := List.mem_flatMap.mp hh
    obtain ⟨u, -, rfl⟩ := List.mem_map.mp hu
    exact beq_iff_eq.mpr (u.2 h hh)
  have hnumbered := numbered_renumberAll (ts.map (·.1)) s.nextHandle
  rw [← renumberAll_of_due _ _ hnew] at hnumbered
  exact hs.evolves_update ⟨fun _ => rfl, fun _ => rfl⟩ ht hnumbered (Nat.le_refl _) fun htop => htop

theorem does_scriptTurn {rest : Script c.busy} (hturn : c.scriptTurn s h rest = some r) :
    c.Does s (.script h rest) r := by
  cases rest with
  | done =>
    obtain rfl := Option.some.inj hturn
    exact .idle (by simp) rfl
  | fail f => cases hturn
  | look next =>
    obtain rfl := Option.some.inj hturn
    exact .idle (by simp [Task.needs]) rfl
  | remember m next =>
    obtain rfl := Option.some.inj hturn
    exact .still m s.journal (by simp [Task.needs]) rfl
  | record e next =>
    obtain rfl := Option.some.inj hturn
    exact .still s.memory (s.journal ++ [e]) (by simp [Task.needs]) rfl
  | rewrite g next =>
    obtain rfl := Option.some.inj hturn
    refine .write fun hs ht hid => ?_
    subst hid
    exact evolves_rewrite hs ht g
  | nest ts next =>
    obtain rfl := Option.some.inj hturn
    refine .write fun hs ht hid => ?_
    subst hid
    exact evolves_nest hs ht ts
  | insert t ht next =>
    obtain rfl := Option.some.inj hturn
    exact .write fun hs _ _ => (hs.evolves_insert t.2 ht).mono (List.nil_subset _)
  | remove keys next =>
    obtain rfl := Option.some.inj hturn
    exact .write fun hs _ _ => (hs.evolves_remove keys).mono (List.nil_subset _)
  | find q p next =>
    rw [scriptTurn] at hturn
    cases hlookup : s.lookup? q p with
    | none =>
      rw [hlookup] at hturn
      obtain rfl := Option.some.inj hturn
      exact .idle (by simp [Task.needs]) rfl
    | some t =>
      rw [hlookup] at hturn
      dsimp only at hturn
      split at hturn
      · obtain rfl := Option.some.inj hturn
        exact .idle (by simp [Task.needs]) rfl
      case isFalse hbegun =>
        obtain rfl := Option.some.inj hturn
        exact .hand (Store.knows_of_lookup? hlookup) hbegun (.inr rfl) (by simp [Task.needs])
          (by simp [Task.tree?])
  | findInner parent q next =>
    rw [scriptTurn] at hturn
    cases hfound : (s.get? parent).bind (·.nested? q) with
    | none =>
      rw [hfound] at hturn
      cases hturn
    | some t =>
      rw [hfound] at hturn
      dsimp only at hturn
      split at hturn
      · obtain rfl := Option.some.inj hturn
        exact .idle (by simp [Task.needs]) rfl
      case isFalse hbegun =>
        obtain rfl := Option.some.inj hturn
        obtain ⟨u, hu, hnested⟩ := Option.bind_eq_some_iff.mp hfound
        obtain ⟨v, hv, htv⟩ := mem_walkAll_iff.mp (List.mem_of_find?_eq_some hnested)
        have hknows := (Store.knows_of_get? hu).1.within (.inner hv htv)
        exact .hand hknows hbegun (.inr rfl) (by simp [Task.needs]) (by simp [Task.tree?])

theorem does_turn (hturn : c.turn s τ = some r) : c.Does s τ r := by
  cases τ with
  | sweep number =>
    simp only [turn] at hturn
    split at hturn
    · obtain rfl := Option.some.inj hturn
      exact .idle (by simp) rfl
    · obtain rfl := Option.some.inj hturn
      exact .idle (by simp [Task.needs]) rfl
  | prepare workers number keys =>
    cases workers with
    | nil =>
      obtain rfl := Option.some.inj hturn
      exact .still s.memory (s.journal ++ [_]) (by simp [Task.needs]) rfl
    | cons w workers =>
      simp only [turn] at hturn
      split at hturn
      · cases hturn
      case h_2 memory _ =>
        obtain rfl := Option.some.inj hturn
        exact .still memory s.journal (by simp [Task.needs]) rfl
  | roots keys =>
    cases keys with
    | nil =>
      obtain rfl := Option.some.inj hturn
      exact .idle (by simp) rfl
    | cons key keys =>
      simp only [turn] at hturn
      split at hturn
      · obtain rfl := Option.some.inj hturn
        exact .idle (by simp [Task.needs]) rfl
      · split at hturn
        · obtain rfl := Option.some.inj hturn
          exact .idle (by simp [Task.needs]) rfl
        · obtain rfl := Option.some.inj hturn
          exact .idle (by simp [Task.needs]) rfl
  | tree x asker =>
    simp only [turn] at hturn
    split at hturn
    · cases hturn
    case h_2 t ht =>
      split at hturn
      case isTrue hnone =>
        obtain rfl := Option.some.inj hturn
        rw [List.isEmpty_iff] at hnone
        obtain ⟨hknows, rfl⟩ := Store.knows_of_get? ht
        refine .hand hknows (pending_eq_nil_iff.mp hnone t .self) ?_ ?_ ?_
        · cases asker <;> simp
        · cases asker <;> simp [Task.resume, Task.needs]
        · exact fun x hx => ⟨Option.some.inj hx, hnone⟩
      case isFalse =>
        obtain rfl := Option.some.inj hturn
        exact .list ht
  | pending hs =>
    cases hs with
    | nil =>
      obtain rfl := Option.some.inj hturn
      exact .idle (by simp) rfl
    | cons h hs =>
      simp only [turn] at hturn
      split at hturn
      · cases hturn
      case h_2 t ht =>
        split at hturn
        case isTrue hlt =>
          obtain rfl := Option.some.inj hturn
          exact .start ht hlt
        case isFalse =>
          obtain rfl := Option.some.inj hturn
          exact .idle (by simp [Task.needs]) rfl
  | passes h workers =>
    cases workers with
    | nil =>
      obtain rfl := Option.some.inj hturn
      exact .idle (by simp) rfl
    | cons w workers =>
      obtain rfl := Option.some.inj hturn
      exact .idle (by simp [Task.needs]) rfl
  | script h rest => exact does_scriptTurn hturn
  | finish h =>
    obtain rfl := Option.some.inj hturn
    exact .finish
  | raise f => cases hturn

-- ---------------------------------------------------------------------------
-- What holds at every moment
-- ---------------------------------------------------------------------------

/-- A tree further down the stack holds the type, and the type has not come past the end of the step. -/
def Held (c : Crew) (s : Store) (stack : List (Task c.busy)) (a : Handle) : Prop :=
  (∃ x ∈ trees stack, s.Inside a x) ∧ ∃ t, s.Knows t ∧ t.id = a ∧ t.status ≤ c.done

/-- All that tasks need is held. -/
def Upheld (c : Crew) (s : Store) : List (Task c.busy) → Prop
  | [] => True
  | τ :: stack => (∀ a ∈ τ.needs, c.Held s stack a) ∧ c.Upheld s stack

structure Sane (m : Moment c.busy) : Prop where
  whole : m.store.Whole
  upheld : c.Upheld m.store m.stack

/-- What is not begun below a type that is, some tree on the stack will come to. -/
def Covered (c : Crew) (m : Moment c.busy) : Prop :=
  ∀ a, m.store.Stray c.busy a → ∃ x ∈ trees m.stack, m.store.Inside a x

theorem Held.evolves {worked : List Handle} (hheld : c.Held s stack a)
    (hevolves : s.Evolves c.busy c.done worked s') : c.Held s' stack a := by
  obtain ⟨⟨x, hx, hinside⟩, t, ht, rfl, htop⟩ := hheld
  obtain ⟨t', ht', hbecomes⟩ := hevolves.stays t ht
  exact ⟨⟨x, hx, hinside.evolves hevolves⟩, t', ht', hbecomes.id, hbecomes.top htop⟩

theorem Held.append (hheld : c.Held s stack a) (tasks : List (Task c.busy)) :
    c.Held s (tasks ++ stack) a := by
  obtain ⟨⟨x, hx, hinside⟩, htop⟩ := hheld
  refine ⟨⟨x, ?_, hinside⟩, htop⟩
  rw [trees_append]
  exact List.mem_append_right _ hx

theorem Upheld.evolves {worked : List Handle} (hup : c.Upheld s stack)
    (hevolves : s.Evolves c.busy c.done worked s') : c.Upheld s' stack := by
  induction stack with
  | nil => trivial
  | cons τ stack ih => exact ⟨fun a ha => (hup.1 a ha).evolves hevolves, ih hup.2⟩

/-- Tasks that need no more than one did may take its place. -/
theorem Upheld.replace (hup : c.Upheld s (τ :: stack)) (hneeds : ∀ σ ∈ tasks, σ.needs ⊆ τ.needs) :
    c.Upheld s (tasks ++ stack) := by
  induction tasks with
  | nil => exact hup.2
  | cons σ tasks ih =>
    obtain ⟨hσ, htasks⟩ := List.forall_mem_cons.mp hneeds
    exact ⟨fun a ha => (hup.1 a (hσ ha)).append tasks, ih htasks⟩

theorem Does.evolves (hbusy : c.busy < c.done) (hdoes : c.Does s τ r) (hsane : c.Sane ⟨τ :: stack, s⟩) :
    s.Evolves c.busy c.done τ.needs r.store := by
  cases hdoes with
  | still memory journal => exact (hsane.whole.evolves_quiet memory journal).mono (List.nil_subset _)
  | write hs' =>
    obtain ⟨-, t, ht, hid, -⟩ := hsane.upheld.1 _ (List.mem_singleton_self _)
    exact hs' hsane.whole ht hid
  | hand => exact (hsane.whole.evolves_quiet s.memory s.journal).mono (List.nil_subset _)
  | list => exact (hsane.whole.evolves_quiet s.memory s.journal).mono (List.nil_subset _)
  | start ht hlt =>
    obtain ⟨hknows, rfl⟩ := Store.knows_of_get? ht
    refine (evolves_setStatus hsane.whole hknows (Nat.le_of_lt hlt) (Nat.le_of_lt hbusy)).mono ?_
    exact List.cons_subset_cons _ (List.nil_subset _)
  | finish =>
    obtain ⟨-, t, ht, rfl, htop⟩ := hsane.upheld.1 _ (List.mem_singleton_self _)
    exact evolves_setStatus hsane.whole ht htop (Nat.le_refl _)

theorem Does.upheld (hbusy : c.busy < c.done) (hdoes : c.Does s τ r) (hsane : c.Sane ⟨τ :: stack, s⟩) :
    c.Upheld r.store (r.tasks ++ stack) := by
  have hup := hsane.upheld.evolves (hdoes.evolves hbusy hsane)
  cases hdoes with
  | still _ _ hneeds => exact hup.replace hneeds
  | write => exact hup.replace (by simp [Task.needs])
  | hand _ _ _ hneeds => exact hup.replace hneeds
  | @list x asker t ht =>
    obtain ⟨hknows, rfl⟩ := Store.knows_of_get? ht
    refine ⟨fun a ha => ?_, hup⟩
    obtain ⟨u, hu, hlt, rfl⟩ := mem_pending_iff.mp (List.mem_reverse.mp ha)
    exact ⟨⟨t.id, List.mem_cons_self, hknows.inside hu⟩, u, hknows.within hu, rfl,
      Nat.le_of_lt (Nat.lt_trans hlt hbusy)⟩
  | start => exact hup.replace (by simp [Task.needs])
  | finish => exact hup.replace (by simp)

/-- The work on a tree ends when all in it is begun. -/
theorem Does.tree_of_stray (hdoes : c.Does s τ r) (hs : s.Whole) (ha : s.Stray c.busy a) {x : Handle}
    (hx : τ.tree? = some x) (hinside : s.Inside a x) : x ∈ trees r.tasks := by
  cases hdoes with
  | still _ _ _ htree => exact absurd (htree.symm.trans hx) (Option.some_ne_none x).symm
  | write => cases hx
  | hand ht _ _ _ htree =>
    obtain ⟨rfl, hnone⟩ := htree x hx
    exact absurd (hnone ▸ ha.mem_pending hs ht hinside) List.not_mem_nil
  | list => exact Option.some.inj hx ▸ List.mem_cons_self
  | start => cases hx
  | finish => cases hx

theorem Does.covered (hbusy : c.busy < c.done) (hdoes : c.Does s τ r) (hsane : c.Sane ⟨τ :: stack, s⟩)
    (hcovered : c.Covered ⟨τ :: stack, s⟩) : c.Covered ⟨r.tasks ++ stack, r.store⟩ := by
  intro a ha
  have hevolves := hdoes.evolves hbusy hsane
  simp only [trees_append, List.mem_append]
  obtain ha | ⟨h, hh, hinside⟩ := hevolves.strays a ha
  · obtain ⟨x, hx, hinside⟩ := hcovered a ha
    rw [trees_cons, List.mem_append, Option.mem_toList] at hx
    obtain hx | hx := hx
    · exact ⟨x, .inl (hdoes.tree_of_stray hsane.whole ha hx hinside), hinside.evolves hevolves⟩
    · exact ⟨x, .inr hx, hinside.evolves hevolves⟩
  · -- what is put into a type that is worked on is in the tree that holds the type
    obtain ⟨⟨x, hx, hheld⟩, -⟩ := hsane.upheld.1 h hh
    exact ⟨x, .inr hx, hinside.trans hevolves.whole (hheld.evolves hevolves)⟩

theorem Does.sane (hbusy : c.busy < c.done) (hdoes : c.Does s τ r) (hsane : c.Sane ⟨τ :: stack, s⟩) :
    c.Sane ⟨r.tasks ++ stack, r.store⟩ where
  whole := (hdoes.evolves hbusy hsane).whole
  upheld := hdoes.upheld hbusy hsane

theorem needs_caught_subset (f : Failure) (τ : Task busy) : (τ.caught f).needs ⊆ τ.needs := by
  unfold Task.caught
  split <;> simp [Task.needs]

theorem Sane.raise (hsane : c.Sane ⟨stack, s⟩) (f : Failure) : c.Sane ⟨.raise f :: stack, s⟩ :=
  ⟨hsane.whole, fun _ ha => absurd ha List.not_mem_nil, hsane.upheld⟩

theorem Sane.unwind {f : Failure} (hsane : c.Sane ⟨.raise f :: τ :: stack, s⟩) :
    c.Sane ⟨τ.caught f :: stack, s⟩ := by
  have hup : c.Upheld s ([τ.caught f] ++ stack) :=
    hsane.upheld.2.replace (List.forall_mem_singleton.mpr (needs_caught_subset f τ))
  exact ⟨hsane.whole, hup⟩

-- ---------------------------------------------------------------------------
-- Failures that are passed on
-- ---------------------------------------------------------------------------

end Crew

/-- A handler that fails when a look-up does. -/
def Script.PassesOn : Script busy → Prop
  | .done => True
  | .fail _ => True
  | .look next => ∀ s, (next s).PassesOn
  | .remember _ next => next.PassesOn
  | .record _ next => next.PassesOn
  | .rewrite _ next => next.PassesOn
  | .nest _ next => next.PassesOn
  | .insert _ _ next => next.PassesOn
  | .remove _ next => next.PassesOn
  | .find _ _ next => (∀ r, (next (.ok r)).PassesOn) ∧ ∀ f, ∃ f', next (.error f) = .fail f'
  | .findInner _ _ next => (∀ x, (next (.ok x)).PassesOn) ∧ ∀ f, ∃ f', next (.error f) = .fail f'

def Task.PassesOn : Task busy → Prop
  | .tree _ (some (_, next)) => (∀ x, (next (.ok x)).PassesOn) ∧ ∀ f, ∃ f', next (.error f) = .fail f'
  | .passes _ workers => ∀ w ∈ workers, ∀ h, (w.work h).PassesOn
  | .script _ rest => rest.PassesOn
  | _ => True

namespace Crew

/-- All handlers fail when a look-up does. -/
def PassesOn (c : Crew) : Prop :=
  ∀ w ∈ c.workers, ∀ h, (w.work h).PassesOn

theorem passesOn_scriptTurn {rest : Script c.busy} (hturn : c.scriptTurn s h rest = some r)
    (hrest : rest.PassesOn) : ∀ σ ∈ r.tasks, σ.PassesOn := by
  cases rest with
  | fail f => cases hturn
  | find q p next =>
    simp only [scriptTurn] at hturn
    split at hturn
    · obtain rfl := Option.some.inj hturn
      exact List.forall_mem_singleton.mpr (hrest.1 _)
    · split at hturn
      · obtain rfl := Option.some.inj hturn
        exact List.forall_mem_cons.mpr ⟨trivial, List.forall_mem_singleton.mpr hrest⟩
      · obtain rfl := Option.some.inj hturn
        exact List.forall_mem_singleton.mpr (hrest.1 _)
  | findInner parent q next =>
    simp only [scriptTurn] at hturn
    split at hturn
    · cases hturn
    · split at hturn
      · obtain rfl := Option.some.inj hturn
        exact List.forall_mem_singleton.mpr hrest
      · obtain rfl := Option.some.inj hturn
        exact List.forall_mem_singleton.mpr (hrest.1 _)
  | done =>
    obtain rfl := Option.some.inj hturn
    exact fun _ hσ => absurd hσ List.not_mem_nil
  | look next =>
    obtain rfl := Option.some.inj hturn
    exact List.forall_mem_singleton.mpr (hrest s)
  | _ =>
    obtain rfl := Option.some.inj hturn
    exact List.forall_mem_singleton.mpr hrest

theorem passesOn_turn (hc : c.PassesOn) (hturn : c.turn s τ = some r) (hτ : τ.PassesOn) :
    ∀ σ ∈ r.tasks, σ.PassesOn := by
  cases τ with
  | sweep number =>
    simp only [turn] at hturn
    split at hturn <;> obtain rfl := Option.some.inj hturn <;> simp [Task.PassesOn]
  | prepare workers number keys =>
    cases workers with
    | nil =>
      obtain rfl := Option.some.inj hturn
      simp [Task.PassesOn]
    | cons w workers =>
      simp only [turn] at hturn
      split at hturn
      · cases hturn
      · obtain rfl := Option.some.inj hturn
        simp [Task.PassesOn]
  | roots keys =>
    cases keys with
    | nil =>
      obtain rfl := Option.some.inj hturn
      simp
    | cons key keys =>
      simp only [turn] at hturn
      split at hturn
      · obtain rfl := Option.some.inj hturn
        simp [Task.PassesOn]
      · split at hturn <;> obtain rfl := Option.some.inj hturn <;> simp [Task.PassesOn]
  | tree x asker =>
    simp only [turn] at hturn
    split at hturn
    · cases hturn
    · split at hturn
      · obtain rfl := Option.some.inj hturn
        cases asker with
        | none => simp [Task.resume]
        | some asking => exact List.forall_mem_singleton.mpr (hτ.1 x)
      · obtain rfl := Option.some.inj hturn
        exact List.forall_mem_cons.mpr ⟨trivial, List.forall_mem_singleton.mpr hτ⟩
  | pending hs =>
    cases hs with
    | nil =>
      obtain rfl := Option.some.inj hturn
      simp
    | cons h hs =>
      simp only [turn] at hturn
      split at hturn
      · cases hturn
      · split at hturn
        · obtain rfl := Option.some.inj hturn
          exact List.forall_mem_cons.mpr ⟨hc, by simp [Task.PassesOn]⟩
        · obtain rfl := Option.some.inj hturn
          simp [Task.PassesOn]
  | passes h workers =>
    cases workers with
    | nil =>
      obtain rfl := Option.some.inj hturn
      simp
    | cons w workers =>
      obtain rfl := Option.some.inj hturn
      obtain ⟨hw, hworkers⟩ := List.forall_mem_cons.mp hτ
      exact List.forall_mem_cons.mpr ⟨hw h, List.forall_mem_singleton.mpr hworkers⟩
  | script h rest => exact passesOn_scriptTurn hturn hτ
  | finish h =>
    obtain rfl := Option.some.inj hturn
    simp
  | raise f => cases hturn

/-- A failure is on its way, or comes next. -/
def Doomed : List (Task c.busy) → Prop
  | .raise _ :: _ => True
  | .script _ (.fail _) :: _ => True
  | _ => False

theorem Doomed.turn_eq_none (h : Doomed (τ :: stack)) : c.turn s τ = none := by
  unfold Doomed at h
  split at h
  case h_1 heq => cases heq; rfl
  case h_2 heq => cases heq; rfl
  case h_3 => exact h.elim

/-- Handlers that pass failures on let a failure through. -/
theorem caught_cases (hτ : τ.PassesOn) (f : Failure) :
    τ.caught f = .raise f ∨ ∃ h f', τ.caught f = .script h (.fail f') := by
  unfold Task.caught
  split
  case h_1 h q p next =>
    obtain ⟨f', hf'⟩ := hτ.2 f
    exact .inr ⟨h, f', by rw [hf']⟩
  case h_2 h parent q next =>
    obtain ⟨f', hf'⟩ := hτ.2 f
    exact .inr ⟨h, f', by rw [hf']⟩
  case h_3 x h next =>
    obtain ⟨f', hf'⟩ := hτ.2 f
    exact .inr ⟨h, f', by rw [hf']⟩
  case h_4 => exact .inl rfl

/-- What holds at every moment when all handlers pass failures on. -/
structure Strict (m : Moment c.busy) : Prop extends c.Sane m where
  passesOn : ∀ τ ∈ m.stack, τ.PassesOn
  covered : Doomed m.stack ∨ c.Covered m

theorem Strict.turn (hbusy : c.busy < c.done) (hc : c.PassesOn) (hturn : c.turn s τ = some r)
    (h : Strict (c := c) ⟨τ :: stack, s⟩) : Strict (c := c) ⟨r.tasks ++ stack, r.store⟩ where
  toSane := (does_turn hturn).sane hbusy h.toSane
  passesOn := by
    obtain ⟨hτ, hstack⟩ := List.forall_mem_cons.mp h.passesOn
    exact List.forall_mem_append.mpr ⟨passesOn_turn hc hturn hτ, hstack⟩
  covered := by
    obtain hdoomed | hcovered := h.covered
    · rw [hdoomed.turn_eq_none] at hturn
      cases hturn
    · exact .inr ((does_turn hturn).covered hbusy h.toSane hcovered)

theorem Strict.raise (h : Strict (c := c) ⟨stack, s⟩) (f : Failure) : Strict (c := c) ⟨.raise f :: stack, s⟩ where
  toSane := h.toSane.raise f
  passesOn := List.forall_mem_cons.mpr ⟨trivial, h.passesOn⟩
  covered := .inl trivial

theorem Strict.unwind {f : Failure} (h : Strict (c := c) ⟨.raise f :: τ :: stack, s⟩) :
    Strict (c := c) ⟨τ.caught f :: stack, s⟩ := by
  obtain ⟨hτ, hstack⟩ := List.forall_mem_cons.mp (List.forall_mem_cons.mp h.passesOn).2
  have hsane := h.toSane.unwind
  obtain hcaught | ⟨k, f', hcaught⟩ := caught_cases hτ f
  · rw [hcaught] at hsane ⊢
    exact ⟨hsane, List.forall_mem_cons.mpr ⟨trivial, hstack⟩, .inl trivial⟩
  · rw [hcaught] at hsane ⊢
    exact ⟨hsane, List.forall_mem_cons.mpr ⟨trivial, hstack⟩, .inl trivial⟩


-- ---------------------------------------------------------------------------
-- What has been seen
-- ---------------------------------------------------------------------------

/-- The type that has been started on or handed out is begun. -/
def Begun (c : Crew) (s : Store) (sign : Sign) : Prop :=
  ∃ t, s.Knows t ∧ t.id = sign.handle ∧ ¬ t.status < c.busy

structure Logged (c : Crew) (signs : List Sign) (s : Store) : Prop where
  starts : (starts signs).Nodup
  begun : ∀ sign ∈ signs, c.Begun s sign

theorem Begun.evolves {worked : List Handle} {sign : Sign} (hbegun : c.Begun s sign)
    (hevolves : s.Evolves c.busy top worked s') : c.Begun s' sign := by
  obtain ⟨t, ht, hid, hbegun⟩ := hbegun
  obtain ⟨t', ht', hbecomes⟩ := hevolves.stays t ht
  exact ⟨t', ht', hbecomes.id.trans hid, fun hlt => hbegun (Nat.lt_of_le_of_lt hbecomes.status hlt)⟩

/-- What a turn shows is begun after it. -/
theorem Does.begun (hdoes : c.Does s τ r) (hs : s.Whole) {sign : Sign} (hsign : sign ∈ r.signs) :
    c.Begun r.store sign := by
  cases hdoes with
  | still => exact absurd hsign List.not_mem_nil
  | write => exact absurd hsign List.not_mem_nil
  | hand ht hbegun hsigns =>
    obtain rfl | rfl := hsigns
    · exact absurd hsign List.not_mem_nil
    · rw [List.mem_singleton.mp hsign]
      exact ⟨_, ht, rfl, hbegun⟩
  | list => exact absurd hsign List.not_mem_nil
  | @start h hs' t ht hlt =>
    rw [List.mem_singleton.mp hsign]
    obtain ⟨hknows, rfl⟩ := Store.knows_of_get? ht
    have hstarted := hs.knows_update (h := t.id) (widens_status c.busy) hknows
    rw [updateAt_of_eq rfl] at hstarted
    exact ⟨_, hstarted, rfl, Nat.lt_irrefl _⟩
  | finish => exact absurd hsign List.not_mem_nil

/-- Handlers start, in a turn, on one type at most, and only when it is not begun. -/
theorem Does.starts_eq (hdoes : c.Does s τ r) :
    starts r.signs = [] ∨ ∃ t, s.Knows t ∧ t.status < c.busy ∧ starts r.signs = [t.id] := by
  cases hdoes with
  | still => exact .inl rfl
  | write => exact .inl rfl
  | hand _ _ hsigns =>
    obtain rfl | rfl := hsigns
    · exact .inl rfl
    · exact .inl rfl
  | list => exact .inl rfl
  | start ht hlt =>
    obtain ⟨hknows, rfl⟩ := Store.knows_of_get? ht
    exact .inr ⟨_, hknows, hlt, rfl⟩
  | finish => exact .inl rfl

theorem Does.logged (hbusy : c.busy < c.done) {signs : List Sign} (hdoes : c.Does s τ r)
    (hsane : c.Sane ⟨τ :: stack, s⟩) (hlog : c.Logged signs s) : c.Logged (signs ++ r.signs) r.store where
  starts := by
    rw [starts, List.filterMap_append, ← starts, ← starts]
    obtain hnone | ⟨t, ht, hlt, hone⟩ := hdoes.starts_eq
    · rw [hnone, List.append_nil]
      exact hlog.starts
    · rw [hone]
      refine List.nodup_append.mpr ⟨hlog.starts, List.nodup_singleton _, fun h hh h' hh' heq => ?_⟩
      -- what has been started on before is begun
      obtain ⟨u, hu, hid, hbegun⟩ := hlog.begun (.started h) (mem_starts_iff.mp hh)
      obtain rfl := hu.eq_of_id hsane.whole ht ((hid.trans heq).trans (List.mem_singleton.mp hh'))
      exact hbegun hlt
  begun sign hsign := by
    obtain hsign | hsign := List.mem_append.mp hsign
    · exact (hlog.begun sign hsign).evolves (hdoes.evolves hbusy hsane)
    · exact hdoes.begun hsane.whole hsign

-- ---------------------------------------------------------------------------
-- What holds along every path
-- ---------------------------------------------------------------------------

variable {m m' : Moment c.busy} {signs signs' : List Sign}

theorem Path.sane (hbusy : c.busy < c.done) (hpath : c.Path m signs m') (hsane : c.Sane m) : c.Sane m' := by
  induction hpath with
  | refl => exact hsane
  | turn hturn _ ih => exact ih ((does_turn hturn).sane hbusy hsane)
  | fail f _ ih => exact ih (hsane.raise f)
  | unwind _ ih => exact ih hsane.unwind

theorem Path.strict (hbusy : c.busy < c.done) (hc : c.PassesOn) (hpath : c.Path m signs m') (h : Strict m) :
    Strict m' := by
  induction hpath with
  | refl => exact h
  | turn hturn _ ih => exact ih (h.turn hbusy hc hturn)
  | fail f _ ih => exact ih (h.raise f)
  | unwind _ ih => exact ih h.unwind

theorem Path.logged (hbusy : c.busy < c.done) (hpath : c.Path m signs' m') (hsane : c.Sane m)
    (hlog : c.Logged signs m.store) : c.Logged (signs ++ signs') m'.store := by
  induction hpath generalizing signs with
  | refl => rwa [List.append_nil]
  | turn hturn _ ih =>
    rw [← List.append_assoc]
    exact ih ((does_turn hturn).sane hbusy hsane) ((does_turn hturn).logged hbusy hsane hlog)
  | fail f _ ih => exact ih (hsane.raise f) hlog
  | unwind _ ih => exact ih hsane.unwind hlog

theorem Path.stays (hbusy : c.busy < c.done) (hpath : c.Path m signs m') (hsane : c.Sane m)
    (ht : m.store.Knows t) : ∃ t', m'.store.Knows t' ∧ t'.id = t.id ∧ t.status ≤ t'.status := by
  induction hpath generalizing t with
  | refl => exact ⟨t, ht, rfl, Nat.le_refl _⟩
  | turn hturn _ ih =>
    have hdoes := does_turn hturn
    obtain ⟨u, hu, hbecomes⟩ := (hdoes.evolves hbusy hsane).stays t ht
    obtain ⟨v, hv, hid, hstatus⟩ := ih (hdoes.sane hbusy hsane) hu
    exact ⟨v, hv, hid.trans hbecomes.id, Nat.le_trans hbecomes.status hstatus⟩
  | fail f _ ih => exact ih (hsane.raise f) ht
  | unwind _ ih => exact ih hsane.unwind ht

theorem strict_start (hs : s.Whole)
    (hclean : ∀ t ∈ s.types, c.busy ≤ t.status → ∀ u, Within u t → c.busy ≤ u.status) :
    Strict (c.start s) where
  whole := by
    have hevolves : s.Evolves c.busy c.done [] (c.start s).store := hs.evolves_quiet _ s.journal
    exact hevolves.whole
  upheld := ⟨fun _ ha => absurd ha List.not_mem_nil, trivial⟩
  passesOn := List.forall_mem_singleton.mpr trivial
  covered := by
    refine .inr ?_
    rintro a ⟨t, ht, hbegun, ha⟩
    obtain ⟨u, hu, hlt, -⟩ := mem_pending_iff.mp ha
    exact absurd hlt (Nat.not_lt.mpr (hclean t ht (Nat.not_lt.mp hbegun) u hu))

/-- When no root is left that is not begun, and no task, then no type is left. -/
theorem Strict.begun_of_roots (h : Strict (c := c) ⟨[], s⟩) (hroots : ∀ t ∈ s.types, ¬ t.status < c.busy)
    {u : SchemaType} (hu : s.Holds u) : c.busy ≤ u.status := by
  obtain ⟨t, ht, hut⟩ := hu
  refine Nat.not_lt.mp fun hlt => ?_
  obtain hdoomed | hcovered := h.covered
  · exact hdoomed
  · obtain ⟨x, hx, -⟩ := hcovered u.id ⟨t, ht, hroots t ht, mem_pending_iff.mpr ⟨u, hut, hlt, rfl⟩⟩
    exact absurd hx List.not_mem_nil

/-- A step that ends well has begun every type, if its handlers pass failures on. -/
def Finishes (c : Crew) (s s' : Store) : Prop :=
  (∃ signs, c.Path (c.start s) signs ⟨[], s'⟩) ∧ (c.PassesOn → ∀ u, s'.Holds u → c.busy ≤ u.status)

/-- A step that fails comes to its failure. -/
def Stops (c : Crew) (s : Store) (f : Failure) (s' : Store) : Prop :=
  ∃ signs, c.Path (c.start s) signs ⟨[.raise f], s'⟩

/-- Wherever a step is: its handlers have started on a type once at most, the types that they have looked
up are begun, and no status falls from there on. When it ends well and no handler goes on after a look-up
has failed, every type is begun. -/
theorem run_orderly (c : Crew) (hbusy : c.busy < c.done) (cancelled : Bool) {s : Store} (hs : s.Whole)
    (hclean : ∀ t ∈ s.types, c.busy ≤ t.status → ∀ u, Within u t → c.busy ≤ u.status) :
    (∀ signs m, c.Path (c.start s) signs m →
      (starts signs).Nodup ∧
      (∀ x, .handed x ∈ signs → ∃ t, m.store.get? x = some t ∧ c.busy ≤ t.status) ∧
      ∀ signs' m', c.Path m signs' m' → ∀ h t, m.store.get? h = some t →
        ∃ t', m'.store.get? h = some t' ∧ t.status ≤ t'.status) ∧
    (∀ bound, wp (c.step.runWithin bound cancelled) (fun _ => c.Finishes s) (c.Stops s) s) ∧
    wp (c.step.run cancelled) (fun _ => c.Finishes s) (c.Stops s) s := by
  have hstart := strict_start hs hclean
  have hwithin : ∀ bound,
      wp (c.step.runWithin bound cancelled) (fun _ => c.Finishes s) (c.Stops s) s := by
    intro bound
    refine wp_mono (wp_and (c.mirrors_runWithin bound cancelled s)
      (Upkeep.wp_runWithin_roots c.step bound cancelled s)) ?_ ?_
    · rintro _ s' ⟨⟨signs, hpath⟩, hroots⟩
      exact ⟨⟨signs, hpath⟩, fun hc u hu => (hpath.strict hbusy hc hstart).begun_of_roots hroots hu⟩
    · rintro _ s' ⟨hstops, -⟩
      exact hstops
  refine ⟨fun signs m hpath => ?_, hwithin, wp_run fun bound _ _ => hwithin bound⟩
  have hsane := hpath.sane hbusy hstart.toSane
  have hlog : c.Logged ([] ++ signs) m.store :=
    hpath.logged hbusy hstart.toSane ⟨List.nodup_nil, fun _ hsign => absurd hsign List.not_mem_nil⟩
  refine ⟨hlog.starts, fun x hx => ?_, fun signs' m' hpath' h t ht => ?_⟩
  · obtain ⟨t, ht, hid, hbegun⟩ := hlog.begun _ hx
    exact ⟨t, (Store.get?_eq_some_iff hsane.whole).mpr ⟨ht, hid⟩, Nat.not_lt.mp hbegun⟩
  · obtain ⟨hknows, rfl⟩ := Store.knows_of_get? ht
    obtain ⟨t', ht', hid, hstatus⟩ := hpath'.stays hbusy hsane hknows
    exact ⟨t', (Store.get?_eq_some_iff (hpath'.sane hbusy hsane).whole).mpr ⟨ht', hid⟩, hstatus⟩

end Crew

/-- A handler that goes on with what it finds, and fails when the look-up does. -/
def Script.orFail {α : Type} (next : α → Script busy) : Except Failure α → Script busy
  | .ok a => next a
  | .error f => .fail f

namespace Intertwined

def first : SchemaType :=
  { qname := ⟨"urn:t", "A"⟩
    inner := [{ qname := ⟨"urn:t", "I"⟩ }] }

def second : SchemaType :=
  { qname := ⟨"urn:t", "B"⟩ }

def added : NewTree :=
  ⟨{ qname := ⟨"urn:t", "N"⟩ }, by decide⟩

def store : Store :=
  ({} : Store).insertAll [first, second]

/-- Works on the first root by way of the second, and then on a type that it adds to the first. The work
on the second root adds a root, looks up the first, and removes it. -/
def work (h : Handle) : Script .flattening :=
  if h = 1 then
    .find second.qname (fun _ => true) <| .orFail fun _ =>
    .nest [added] <|
    .findInner 1 added.1.qname <| .orFail fun _ =>
    .done
  else if h = 3 then
    .insert added (.inl (by decide)) <|
    .find first.qname (fun _ => true) <| .orFail fun _ =>
    .remove [0] .done
  else .done

def crew : Crew :=
  { name := "flatten", busy := .flattening, done := .flattened, workers := [{ work }] }

theorem passesOn : crew.PassesOn := by
  refine List.forall_mem_singleton.mpr fun h => ?_
  change (work h).PassesOn
  unfold work
  split
  · exact ⟨fun _ => ⟨fun _ => trivial, fun f => ⟨f, rfl⟩⟩, fun f => ⟨f, rfl⟩⟩
  · split
    · exact ⟨fun _ => trivial, fun f => ⟨f, rfl⟩⟩
    · exact trivial

theorem run_begins_all :
    crew.busy < crew.done ∧ store.Whole ∧
    (∀ t ∈ store.types, crew.busy ≤ t.status → ∀ u, Within u t → crew.busy ≤ u.status) ∧ crew.PassesOn ∧
    wp (crew.step.run false)
      (fun _ s' => s'.types.map (·.qname.name) = ["B", "N"] ∧ ∀ u, s'.Holds u → crew.busy ≤ u.status)
      (fun _ _ => False) store := by
  have hbusy : crew.busy < crew.done := by decide
  have hs : store.Whole :=
    Store.Sound.whole (.insertAll (.empty {}) (.empty {}) (by decide)) ((Store.Fresh.empty {}).insertAll _)
  have hclean : ∀ t ∈ store.types, crew.busy ≤ t.status → ∀ u, Within u t → crew.busy ≤ u.status := by
    simp only [← mem_walk_iff]
    decide +kernel
  have hroots : wp (crew.step.run false) (fun _ s' => s'.types.map (·.qname.name) = ["B", "N"])
      (fun _ _ => False) store := by
    decide +kernel
  refine ⟨hbusy, hs, hclean, passesOn, ?_⟩
  refine wp_mono (wp_and hroots (crew.run_orderly hbusy false hs hclean).2.2) ?_ ?_
  · exact fun _ s' hend => ⟨hend.1, hend.2.2 passesOn⟩
  · exact fun _ _ hfail => hfail.1

/-- The first root goes on although the look-up of the second fails, which has been given an inner type. -/
def careless : Crew :=
  { name := "flatten"
    busy := .flattening
    done := .flattened
    workers := [{
      work := fun h =>
        if h = 1 then .find second.qname (fun _ => true) fun _ => .done
        else if h = 3 then .nest [added] (.fail { cause := .unfinished })
        else .done }] }

example : wp (careless.step.run false) (fun _ s' => ∃ u ∈ walkAll s'.types, u.status < careless.busy)
    (fun _ _ => False) store := by
  decide +kernel

end Intertwined

end Schemata
