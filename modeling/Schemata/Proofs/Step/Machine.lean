import Schemata.Proofs.Step.WeakestPre

/-!
# A sequential step as a machine

A handler is given one type. It may look at everything, rewrite what the type declares, give it new inner
types, add and remove roots and look types up; when a look-up fails, it sees the failure and may go on.
`Script` is what a handler does next.

A step in sequence then is a machine with a stack of tasks: sweeps over the roots, trees with work to do,
types that handlers are at, and handlers that wait for what they look up. `Crew.turn` is one turn of the
machine. At any moment a failure may come up; it takes tasks off the stack down to a handler that waits for
what it looks up. A run of the step is a path of the machine, down to the empty stack when it succeeds and
to a failure alone on the stack when it fails, so whatever holds at every moment of all paths holds
throughout the step.
-/

namespace Schemata

open Compile SchemaType

-- ---------------------------------------------------------------------------
-- Handlers
-- ---------------------------------------------------------------------------

/-- A tree whose types have no handles yet. -/
abbrev NewTree := { t : SchemaType // ∀ h ∈ t.handles, h = 0 }

/-- A change of what a type declares. -/
structure Rewriting where
  change : SchemaType → SchemaType
  id : ∀ t, (change t).id = t.id
  status : ∀ t, (change t).status = t.status
  inner : ∀ t, (change t).inner = t.inner

/-- What a handler does with the type that it is given, in a step that works on types below `busy`. -/
inductive Script (busy : Status) where
  | done
  | fail (f : Failure)
  | look (next : Store → Script busy)
  | remember (m : Memory) (next : Script busy)
  | record (e : Event) (next : Script busy)
  | rewrite (g : Rewriting) (next : Script busy)
  /-- Gives the type new inner types after those that it has. -/
  | nest (ts : List NewTree) (next : Script busy)
  /-- Adds a root. If the step has nothing to do at the root, it has nothing to do below it. -/
  | insert (t : NewTree) (ht : t.1.status < busy ∨ ∀ u, Within u t.1 → ¬ u.status < busy)
      (next : Script busy)
  | remove (keys : List Nat) (next : Script busy)
  | find (q : QName) (p : SchemaType → Bool) (next : Except Failure (Option Handle) → Script busy)
  | findInner (parent : Handle) (q : QName) (next : Except Failure Handle → Script busy)

/-- Gives a type new inner types, with fresh handles. -/
def Store.nest (s : Store) (h : Handle) (ts : List SchemaType) : Store :=
  { s with nextHandle := (renumberAll (· == 0) ts s.nextHandle).2 }.update h fun t =>
    { t with inner := t.inner ++ (renumberAll (· == 0) ts s.nextHandle).1 }

/-- What a computation comes to, its failure included. -/
def Compile.attempt {α : Type} (x : Compile α) : Compile (Except Failure α) :=
  tryCatch (do pure (.ok (← x))) fun f => pure (.error f)

def Script.run {busy : Status} (finder : Finder) (h : Handle) : Script busy → Compile Unit
  | done => pure ()
  | fail f => throw f
  | look next => do (next (← get)).run finder h
  | remember m next => do
    modify fun s => { s with memory := m }
    next.run finder h
  | record e next => do
    modify (·.record e)
    next.run finder h
  | rewrite g next => do
    update h g.change
    next.run finder h
  | nest ts next => do
    modify (·.nest h (ts.map (·.1)))
    next.run finder h
  | insert t _ next => do
    modify (·.insert t.1)
    next.run finder h
  | remove keys next => do
    modify (·.remove keys)
    next.run finder h
  | find q p next => do (next (← attempt (finder.find q p))).run finder h
  | findInner parent q next => do (next (← attempt (finder.findInner parent q))).run finder h

/-- A handler: what it gathers before a sweep, and what it does with a type. -/
structure Worker (busy : Status) where
  prepare : Store → Except Failure Memory := fun s => .ok s.memory
  work : Handle → Script busy

def Worker.pass {busy : Status} (w : Worker busy) : Pass where
  prepare := do
    match w.prepare (← get) with
    | .ok m => modify fun s => { s with memory := m }
    | .error f => throw f
  run _ finder h := (w.work h).run finder h

/-- What a step in sequence consists of. -/
structure Crew where
  name : String
  busy : Status
  done : Status
  workers : List (Worker busy)

def Crew.step (c : Crew) : Step where
  name := c.name
  busy := c.busy
  done := c.done
  passes := c.workers.map Worker.pass

-- ---------------------------------------------------------------------------
-- The machine
-- ---------------------------------------------------------------------------

inductive Task (busy : Status) where
  | sweep (number : Nat)
  /-- The handlers get ready for a sweep over roots. -/
  | prepare (workers : List (Worker busy)) (number : Nat) (keys : List Nat)
  | roots (keys : List Nat)
  /-- Work on a tree. A handler may wait for the type at its top. -/
  | tree (x : Handle) (asker : Option (Handle × (Except Failure Handle → Script busy)))
  | pending (hs : List Handle)
  | passes (h : Handle) (workers : List (Worker busy))
  /-- What a handler does next. Below the top of the stack it waits for what it looks up. -/
  | script (h : Handle) (rest : Script busy)
  | finish (h : Handle)
  /-- A failure on its way down the stack. -/
  | raise (f : Failure)

/-- What can be seen of a run: handlers start on a type, or are handed a type that they look up. -/
inductive Sign where
  | started (h : Handle)
  | handed (h : Handle)

/-- What becomes of a task. -/
structure Turn (busy : Status) where
  signs : List Sign := []
  tasks : List (Task busy) := []
  store : Store

structure Moment (busy : Status) where
  stack : List (Task busy)
  store : Store

/-- How a handler goes on with the type that it has waited for. -/
def Task.resume {busy : Status} (x : Handle) :
    Option (Handle × (Except Failure Handle → Script busy)) → List (Task busy)
  | none => []
  | some (h, next) => [.script h (next (.ok x))]

/-- What takes the place of a task that a failure comes to: a handler that waits for what it looks up goes
on with the failure, and from anything else the failure goes on down. -/
def Task.caught {busy : Status} (f : Failure) : Task busy → Task busy
  | .script h (.find _ _ next) => .script h (next (.error f))
  | .script h (.findInner _ _ next) => .script h (next (.error f))
  | .tree _ (some (h, next)) => .script h (next (.error f))
  | _ => .raise f

namespace Crew

variable (c : Crew)

/-- One turn of a handler. -/
def scriptTurn (s : Store) (h : Handle) : Script c.busy → Option (Turn c.busy)
  | .done => some { store := s }
  | .fail _ => none
  | .look next => some { tasks := [.script h (next s)], store := s }
  | .remember m next => some { tasks := [.script h next], store := { s with memory := m } }
  | .record e next => some { tasks := [.script h next], store := s.record e }
  | .rewrite g next => some { tasks := [.script h next], store := s.update h g.change }
  | .nest ts next => some { tasks := [.script h next], store := s.nest h (ts.map (·.1)) }
  | .insert t _ next => some { tasks := [.script h next], store := s.insert t.1 }
  | .remove keys next => some { tasks := [.script h next], store := s.remove keys }
  | .find q p next =>
    match s.lookup? q p with
    | none => some { tasks := [.script h (next (.ok none))], store := s }
    | some t =>
      if t.status < c.busy then
        some { tasks := [.tree t.id none, .script h (.find q p next)], store := s }
      else some { signs := [.handed t.id], tasks := [.script h (next (.ok (some t.id)))], store := s }
  | .findInner parent q next =>
    match (s.get? parent).bind (·.nested? q) with
    | none => none
    | some t =>
      if t.status < c.busy then some { tasks := [.tree t.id (some (h, next))], store := s }
      else some { signs := [.handed t.id], tasks := [.script h (next (.ok t.id))], store := s }

/-- One turn of the machine; there is none when a task fails. -/
def turn (s : Store) : Task c.busy → Option (Turn c.busy)
  | .sweep number =>
    let keys := (s.roots.filter (·.type.status < c.busy)).map (·.key)
    if keys.isEmpty then some { store := s }
    else some { tasks := [.prepare c.workers number keys, .sweep (number + 1)], store := s }
  | .prepare [] number keys =>
    some { tasks := [.roots keys], store := s.record (.swept c.name number keys.length) }
  | .prepare (w :: ws) number keys =>
    match w.prepare s with
    | .error _ => none
    | .ok m => some { tasks := [.prepare ws number keys], store := { s with memory := m } }
  | .roots [] => some { store := s }
  | .roots (key :: keys) =>
    match s.typeOfKey? key with
    | none => some { tasks := [.roots keys], store := s }
    | some t =>
      if t.status < c.busy && s.contains key then
        some { tasks := [.tree t.id none, .roots keys], store := s }
      else some { tasks := [.roots keys], store := s }
  | .tree x asker =>
    match s.get? x with
    | none => none
    | some t =>
      if (t.pending c.busy).isEmpty then
        some { signs := asker.toList.map fun _ => .handed x, tasks := Task.resume x asker, store := s }
      else some { tasks := [.pending (t.pending c.busy).reverse, .tree x asker], store := s }
  | .pending [] => some { store := s }
  | .pending (h :: hs) =>
    match s.get? h with
    | none => none
    | some t =>
      if t.status < c.busy then some {
        signs := [.started h]
        tasks := [.passes h c.workers, .finish h, .pending hs]
        store := s.update h fun t => { t with status := c.busy } }
      else some { tasks := [.pending hs], store := s }
  | .passes _ [] => some { store := s }
  | .passes h (w :: ws) => some { tasks := [.script h (w.work h), .passes h ws], store := s }
  | .script h rest => c.scriptTurn s h rest
  | .finish h => some { store := s.update h fun t => { t with status := c.done } }
  | .raise _ => none

/-- From one moment to a later one, with what can be seen on the way. -/
inductive Path : Moment c.busy → List Sign → Moment c.busy → Prop
  | refl (m : Moment c.busy) : Path m [] m
  | turn {s : Store} {τ : Task c.busy} {stack : List (Task c.busy)} {r : Turn c.busy} {signs : List Sign}
      {m : Moment c.busy} (hturn : c.turn s τ = some r)
      (hpath : Path ⟨r.tasks ++ stack, r.store⟩ signs m) : Path ⟨τ :: stack, s⟩ (r.signs ++ signs) m
  /-- A failure may come up at any task: something is not found, a bound is reached, the run is cancelled. -/
  | fail {s : Store} {τ : Task c.busy} {stack : List (Task c.busy)} {signs : List Sign} {m : Moment c.busy}
      (f : Failure) (hpath : Path ⟨.raise f :: τ :: stack, s⟩ signs m) : Path ⟨τ :: stack, s⟩ signs m
  | unwind {s : Store} {τ : Task c.busy} {stack : List (Task c.busy)} {signs : List Sign} {m : Moment c.busy}
      {f : Failure} (hpath : Path ⟨τ.caught f :: stack, s⟩ signs m) : Path ⟨.raise f :: τ :: stack, s⟩ signs m

/-- The machine at the beginning of a step. -/
def start (s : Store) : Moment c.busy :=
  ⟨[.sweep 1], { s with memory := { groupMarker := groupMarkerBase } }⟩

-- ---------------------------------------------------------------------------
-- Runs are paths
-- ---------------------------------------------------------------------------

variable {c} {α β : Type} {x : Compile α} {m m' : Moment c.busy} {stack rest : List (Task c.busy)} {s : Store}
  {τ : Task c.busy} {after : α → List (Task c.busy)}

theorem Path.trans {m'' : Moment c.busy} {signs signs' : List Sign} (hpath : c.Path m signs m')
    (hpath' : c.Path m' signs' m'') : c.Path m (signs ++ signs') m'' := by
  induction hpath with
  | refl => exact hpath'
  | turn hturn _ ih =>
    rw [List.append_assoc]
    exact .turn hturn (ih hpath')
  | fail f _ ih => exact .fail f (ih hpath')
  | unwind _ ih => exact .unwind (ih hpath')

/-- Any failure may come up above `rest`. -/
def Breaks (c : Crew) (stack rest : List (Task c.busy)) : Prop :=
  ∀ f s, c.Path ⟨stack, s⟩ [] ⟨.raise f :: rest, s⟩

theorem Breaks.top (τ : Task c.busy) (stack : List (Task c.busy)) : c.Breaks (τ :: stack) (τ :: stack) :=
  fun f _ => .fail f (.refl _)

theorem Breaks.drop (hτ : ∀ f, τ.caught f = .raise f) : c.Breaks (τ :: stack) stack := by
  intro f s
  refine .fail f (.unwind ?_)
  rw [hτ]
  exact .refl _

/-- From a moment on, the machine does what a computation does: it comes to where the tasks that
follow are left, or to a failure above `rest` when the computation fails. -/
def Mirrors (m : Moment c.busy) (rest : List (Task c.busy)) (x : Compile α) (after : α → List (Task c.busy))
    (s : Store) : Prop :=
  wp x (fun a s' => ∃ signs, c.Path m signs ⟨after a, s'⟩)
    (fun f s' => ∃ signs, c.Path m signs ⟨.raise f :: rest, s'⟩) s

namespace Mirrors

theorem pure {a : α} (hstack : stack = after a) : Mirrors ⟨stack, s⟩ rest (Pure.pure a) after s := by
  unfold Mirrors
  rw [wp_pure, ← hstack]
  exact ⟨[], .refl _⟩

theorem throw {f : Failure} (hbreaks : c.Breaks stack rest) :
    Mirrors ⟨stack, s⟩ rest (MonadExcept.throw f : Compile α) after s := by
  unfold Mirrors
  rw [wp_throw]
  exact ⟨[], hbreaks f s⟩

theorem path {signs : List Sign} (hpath : c.Path m signs m') (hx : Mirrors m' rest x after s) :
    Mirrors m rest x after s := by
  refine wp_mono hx ?_ ?_
  · rintro a s' ⟨signs', hpath'⟩
    exact ⟨_, hpath.trans hpath'⟩
  · rintro f s' ⟨signs', hpath'⟩
    exact ⟨_, hpath.trans hpath'⟩

theorem turn {s₀ : Store} {r : Turn c.busy} (hturn : c.turn s₀ τ = some r)
    (hx : Mirrors ⟨r.tasks ++ stack, r.store⟩ rest x after s) : Mirrors ⟨τ :: stack, s₀⟩ rest x after s :=
  path (.turn hturn (.refl _)) hx

/-- A failure goes on down from a task that does not catch it. -/
theorem drop (hx : Mirrors m (τ :: rest) x after s) (hτ : ∀ f, τ.caught f = .raise f) :
    Mirrors m rest x after s := by
  refine wp_mono hx (fun _ _ hend => hend) ?_
  rintro f s' ⟨signs, hpath⟩
  refine ⟨signs ++ [], hpath.trans (.unwind ?_)⟩
  rw [hτ]
  exact .refl _

theorem bind {f : α → Compile β} {k : α → List (Task c.busy)} {after : β → List (Task c.busy)}
    (hx : Mirrors m rest x k s) (hf : ∀ a s', Mirrors ⟨k a, s'⟩ rest (f a) after s') :
    Mirrors m rest (x >>= f) after s := by
  unfold Mirrors
  rw [wp_bind]
  refine wp_mono hx ?_ fun _ _ hfail => hfail
  rintro a s' ⟨signs, hpath⟩
  exact path hpath (hf a s')

/-- A handler that waits goes on with what a computation comes to. -/
theorem attempt {w : Task c.busy} {h : Handle} {next : Except Failure α → Script c.busy}
    (hw : ∀ f, w.caught f = .script h (next (.error f)))
    (hx : Mirrors m (w :: rest) x (fun a => .script h (next (.ok a)) :: rest) s) :
    Mirrors m rest (attempt x) (fun r => .script h (next r) :: rest) s := by
  unfold Mirrors Compile.attempt
  rw [wp_tryCatch, wp_bind]
  refine wp_mono hx (fun a s' hend => wp_pure.mpr hend) ?_
  rintro f s' ⟨signs, hpath⟩
  rw [wp_pure]
  refine ⟨signs ++ [], hpath.trans (.unwind ?_)⟩
  rw [hw]
  exact .refl _

theorem get_bind {f : Store → Compile β} {after : β → List (Task c.busy)} (hf : Mirrors m rest (f s) after s) :
    Mirrors m rest (get >>= f) after s := by
  unfold Mirrors
  rw [wp_bind, wp_get]
  exact hf

theorem modify_bind {g : Store → Store} {f : Unit → Compile β} {after : β → List (Task c.busy)}
    (hf : Mirrors m rest (f ()) after (g s)) : Mirrors m rest (modify g >>= f) after s := by
  unfold Mirrors
  rw [wp_bind, wp_modify]
  exact hf

theorem found_bind {f : SchemaType → Compile β} {after : β → List (Task c.busy)} {h : Handle} {t : SchemaType}
    (ht : s.get? h = some t) (hf : Mirrors m rest (f t) after s) :
    Mirrors m rest (typeOf h >>= f) after s := by
  unfold Mirrors
  rw [wp_bind, wp_typeOf ht]
  exact hf

/-- What looks up a type and does not find it fails, and the store stays. -/
theorem typeOf_bind {f : SchemaType → Compile β} {after : β → List (Task c.busy)} {h : Handle}
    (hbreaks : c.Breaks stack rest) (hf : ∀ t, s.get? h = some t → Mirrors ⟨stack, s⟩ rest (f t) after s) :
    Mirrors ⟨stack, s⟩ rest (typeOf h >>= f) after s := by
  cases hget : s.get? h with
  | none =>
    unfold typeOf
    rw [bind_assoc]
    refine get_bind ?_
    rw [hget]
    exact throw hbreaks
  | some t => exact found_bind hget (hf t hget)

end Mirrors

/-- The machine looks types up as a finder does. -/
structure Serves (c : Crew) (finder : Finder) : Prop where
  find : ∀ h q p next stack s, Mirrors (c := c) ⟨.script h (.find q p next) :: stack, s⟩ stack
    (attempt (finder.find q p)) (fun r => .script h (next r) :: stack) s
  findInner : ∀ h parent q next stack s, Mirrors (c := c) ⟨.script h (.findInner parent q next) :: stack, s⟩
    stack (attempt (finder.findInner parent q)) (fun r => .script h (next r) :: stack) s

/-- The machine works on trees as a computation does. -/
def Processes (c : Crew) (process : Handle → Compile Unit) : Prop :=
  ∀ x asker stack s, Mirrors (c := c) ⟨.tree x asker :: stack, s⟩ (.tree x asker :: stack) (process x)
    (fun _ => Task.resume x asker ++ stack) s

/-- The machine works on single types as a computation does, from their start on. -/
def Applies (c : Crew) (apply : Handle → Compile Unit) : Prop :=
  ∀ h stack s, Mirrors (c := c)
    ⟨.passes h c.workers :: .finish h :: stack, s.update h fun t => { t with status := c.busy }⟩ stack
    (apply h) (fun _ => stack) s

theorem Processes.findProcessed {process : Handle → Compile Unit} (hprocess : c.Processes process)
    (rounds : Nat) (h : Handle) (q : QName) (p : SchemaType → Bool)
    (next : Except Failure (Option Handle) → Script c.busy) (stack : List (Task c.busy)) (s : Store) :
    Mirrors ⟨.script h (.find q p next) :: stack, s⟩ (.script h (.find q p next) :: stack)
      (findProcessed c.busy process q p rounds) (fun r => .script h (next (.ok r)) :: stack) s := by
  induction rounds generalizing s with
  | zero => exact .throw (.top _ _)
  | succ rounds ih =>
    rw [Schemata.findProcessed]
    refine .get_bind ?_
    cases hlookup : s.lookup? q p with
    | none =>
      refine .turn (r := { tasks := [.script h (next (.ok none))], store := s }) ?_ (.pure rfl)
      simp only [Crew.turn, scriptTurn, hlookup]
    | some t =>
      dsimp only
      split
      case isTrue hlt =>
        refine .turn (r := { tasks := [.tree t.id none, .script h (.find q p next)], store := s }) ?_ ?_
        · simp only [Crew.turn, scriptTurn, hlookup, if_pos hlt]
        · exact .bind ((hprocess t.id none _ s).drop fun _ => rfl) fun _ s' => ih s'
      case isFalse hbegun =>
        refine .turn (r := {
          signs := [.handed t.id]
          tasks := [.script h (next (.ok (some t.id)))]
          store := s }) ?_ (.pure rfl)
        simp only [Crew.turn, scriptTurn, hlookup, if_neg hbegun]

/-- The handler waits at its look-up until the inner type is found, and then below the tree of this type. -/
theorem Processes.findInner {process : Handle → Compile Unit} (hprocess : c.Processes process) (rounds : Nat)
    (h parent : Handle) (q : QName) (next : Except Failure Handle → Script c.busy)
    (stack : List (Task c.busy)) (s : Store) :
    Mirrors ⟨.script h (.findInner parent q next) :: stack, s⟩ stack
      (attempt ((Finder.processing c.busy rounds process).findInner parent q))
      (fun r => .script h (next r) :: stack) s := by
  unfold Finder.processing findNested
  simp only [bind_assoc]
  cases hget : s.get? parent with
  | none =>
    refine .attempt (w := .script h (.findInner parent q next)) (fun _ => rfl) (.typeOf_bind (.top _ _) ?_)
    intro t ht
    rw [hget] at ht
    cases ht
  | some t =>
    cases hnested : t.nested? q with
    | none =>
      refine .attempt (w := .script h (.findInner parent q next)) (fun _ => rfl) (.found_bind hget ?_)
      rw [hnested]
      exact .throw (.top _ _)
    | some v =>
      have hfound : (s.get? parent).bind (·.nested? q) = some v := by
        rw [hget]
        exact hnested
      by_cases hlt : v.status < c.busy
      · refine .attempt (w := .tree v.id (some (h, next))) (fun _ => rfl) (.found_bind hget ?_)
        simp only [hnested, pure_bind, if_pos hlt]
        refine .turn (r := { tasks := [.tree v.id (some (h, next))], store := s }) ?_ ?_
        · simp only [Crew.turn, scriptTurn, hfound, if_pos hlt]
        · exact .bind (hprocess v.id _ _ s) fun _ s' => .pure rfl
      · refine .attempt (w := .script h (.findInner parent q next)) (fun _ => rfl) (.found_bind hget ?_)
        simp only [hnested, pure_bind, if_neg hlt]
        refine .turn (r := { signs := [.handed v.id], tasks := [.script h (next (.ok v.id))], store := s }) ?_
          (.pure rfl)
        simp only [Crew.turn, scriptTurn, hfound, if_neg hlt]

theorem Processes.serves {process : Handle → Compile Unit} (hprocess : c.Processes process) (rounds : Nat) :
    c.Serves (.processing c.busy rounds process) where
  find h q p next stack s := .attempt (fun _ => rfl) (hprocess.findProcessed rounds h q p next stack s)
  findInner := hprocess.findInner rounds

theorem Serves.script {finder : Finder} (hfinder : c.Serves finder) (h : Handle) (script : Script c.busy)
    (stack : List (Task c.busy)) (s : Store) :
    Mirrors ⟨.script h script :: stack, s⟩ stack (script.run finder h) (fun _ => stack) s := by
  induction script generalizing s with
  | done => exact .turn rfl (.pure rfl)
  | fail f => exact .throw (.drop fun _ => rfl)
  | look next ih => exact .get_bind (.turn rfl (ih s s))
  | remember m next ih => exact .modify_bind (.turn rfl (ih _))
  | record e next ih => exact .modify_bind (.turn rfl (ih _))
  | rewrite g next ih => exact .modify_bind (.turn rfl (ih _))
  | nest ts next ih => exact .modify_bind (.turn rfl (ih _))
  | insert t ht next ih => exact .modify_bind (.turn rfl (ih _))
  | remove keys next ih => exact .modify_bind (.turn rfl (ih _))
  | find q p next ih => exact .bind (hfinder.find h q p next stack s) fun r s' => ih r s'
  | findInner parent q next ih =>
    exact .bind (hfinder.findInner h parent q next stack s) fun r s' => ih r s'

theorem Serves.runPasses {finder : Finder} (hfinder : c.Serves finder) (place : String) (rounds : Nat)
    (h : Handle) (workers : List (Worker c.busy)) (stack : List (Task c.busy)) (s : Store) :
    Mirrors ⟨.passes h workers :: stack, s⟩ stack
      (runPasses place rounds finder h (workers.map Worker.pass)) (fun _ => stack) s := by
  induction workers generalizing s with
  | nil => exact .turn rfl (.pure rfl)
  | cons w workers ih =>
    rw [List.map_cons, Schemata.runPasses]
    refine .turn rfl (.bind (k := fun _ => .passes h workers :: stack) ?_ fun _ s' => ih s')
    unfold Mirrors
    rw [wp_tryCatch]
    refine wp_mono (hfinder.script h (w.work h) _ s) (fun _ _ hend => hend) ?_
    -- the failure is passed on in other words, and the store stays
    rintro f s' ⟨signs, hpath⟩
    have hother : ∀ f', ∃ signs', c.Path ⟨.script h (w.work h) :: .passes h workers :: stack, s⟩ signs'
        ⟨.raise f' :: stack, s'⟩ := fun f' =>
      ⟨signs ++ [], hpath.trans (.unwind (.fail f' (.unwind (.refl _))))⟩
    rw [wp_bind, typeOf, wp_bind, wp_get]
    cases s'.get? h with
    | none => exact wp_throw.mpr (hother _)
    | some t => exact wp_pure.mpr (wp_throw.mpr (hother _))

theorem Serves.applies {finder : Finder} (hfinder : c.Serves finder) (rounds : Nat) :
    c.Applies (c.step.apply rounds finder) := by
  intro h stack s
  unfold Step.apply
  refine .modify_bind (.bind ((hfinder.runPasses _ rounds h c.workers _ _).drop fun _ => rfl) fun _ s' => ?_)
  refine .turn rfl ?_
  unfold Mirrors
  rw [wp_update]
  exact ⟨[], .refl _⟩

theorem Applies.applyPending {apply : Handle → Compile Unit} (happly : c.Applies apply) (hs : List Handle)
    (stack : List (Task c.busy)) (s : Store) :
    Mirrors ⟨.pending hs :: stack, s⟩ stack (applyPending c.busy apply hs) (fun _ => stack) s := by
  induction hs generalizing s with
  | nil => exact .turn rfl (.pure rfl)
  | cons h hs ih =>
    rw [Schemata.applyPending]
    refine .typeOf_bind (.drop fun _ => rfl) fun t ht => ?_
    split
    case isTrue hlt =>
      refine .turn (r := {
        signs := [.started h]
        tasks := [.passes h c.workers, .finish h, .pending hs]
        store := s.update h fun t => { t with status := c.busy } }) ?_ ?_
      · simp only [Crew.turn, ht, if_pos hlt]
      · exact .bind ((happly h _ s).drop fun _ => rfl) fun _ s' => ih s'
    case isFalse hbegun =>
      refine .turn (r := { tasks := [.pending hs], store := s }) ?_ (ih s)
      simp only [Crew.turn, ht, if_neg hbegun]

theorem Applies.processes {apply : Handle → Compile Unit} (happly : c.Applies apply) (rounds : Nat) :
    c.Processes fun x => applyTree c.busy apply x rounds := by
  induction rounds with
  | zero => exact fun x asker stack s => .throw (.top _ _)
  | succ rounds ih =>
    intro x asker stack s
    dsimp only
    rw [applyTree_succ]
    refine .typeOf_bind (.top _ _) fun t ht => ?_
    split
    case isTrue hnone =>
      refine .turn (r := {
        signs := asker.toList.map fun _ => .handed x
        tasks := Task.resume x asker
        store := s }) ?_ (.pure rfl)
      simp only [Crew.turn, ht, if_pos hnone]
    case isFalse hsome =>
      refine .turn (r := { tasks := [.pending (t.pending c.busy).reverse, .tree x asker], store := s }) ?_ ?_
      · simp only [Crew.turn, ht, if_neg hsome]
      · exact .bind (happly.applyPending _ _ s) fun _ s' => ih x asker stack s'

theorem processes_processTree (c : Crew) (rounds depth : Nat) :
    c.Processes (c.step.processTree rounds depth) := by
  induction depth with
  | zero => exact fun x asker stack s => .throw (.top _ _)
  | succ depth ih => exact ((ih.serves rounds).applies rounds).processes rounds

theorem mirrors_sweepRoots (c : Crew) (bound : Nat) (keys : List Nat) (stack : List (Task c.busy))
    (s : Store) :
    Mirrors (c := c) ⟨.roots keys :: stack, s⟩ stack (c.step.sweepRoots bound keys) (fun _ => stack) s := by
  induction keys generalizing s with
  | nil => exact .turn rfl (.pure rfl)
  | cons key keys ih =>
    rw [Step.sweepRoots]
    refine .get_bind ?_
    cases htype : s.typeOfKey? key with
    | none =>
      refine .turn (r := { tasks := [.roots keys], store := s }) ?_ (ih s)
      simp only [Crew.turn, htype]
    | some t =>
      refine .get_bind ?_
      rw [show c.step.parallel = false from rfl, Bool.false_or]
      split
      case isTrue hdue =>
        refine .turn (r := { tasks := [.tree t.id none, .roots keys], store := s }) ?_ ?_
        · simp only [Crew.turn, htype]
          exact if_pos hdue
        · have htree := (c.processes_processTree bound bound t.id none (.roots keys :: stack) s).drop fun _ => rfl
          exact .bind (htree.drop fun _ => rfl) fun _ s' => ih s'
      case isFalse hdue =>
        refine .turn (r := { tasks := [.roots keys], store := s }) ?_ (ih s)
        simp only [Crew.turn, htype]
        exact if_neg hdue

theorem mirrors_prepare (c : Crew) (workers : List (Worker c.busy)) (number : Nat) (keys : List Nat)
    (stack : List (Task c.busy)) (s : Store) :
    Mirrors (c := c) ⟨.prepare workers number keys :: stack, s⟩ stack
      ((workers.map Worker.pass).forM Pass.prepare) (fun _ => .prepare [] number keys :: stack) s := by
  induction workers generalizing s with
  | nil => exact .pure rfl
  | cons w workers ih =>
    rw [List.map_cons, List.forM_eq_forM, List.forM_cons]
    refine .bind (k := fun _ => .prepare workers number keys :: stack) ?_ fun _ s' => ih s'
    refine .get_bind ?_
    cases hprepare : w.prepare s with
    | error f => exact .throw (.drop fun _ => rfl)
    | ok memory =>
      refine .turn (r := { tasks := [.prepare workers number keys], store := { s with memory } }) ?_ ?_
      · simp only [Crew.turn, hprepare]
      · unfold Mirrors
        rw [wp_modify]
        exact ⟨[], .refl _⟩

theorem mirrors_sweep (c : Crew) (bound : Nat) (cancelled : Bool) (rounds number : Nat) (s : Store) :
    Mirrors (c := c) ⟨[.sweep number], s⟩ [] (c.step.sweep bound cancelled rounds number) (fun _ => []) s := by
  induction rounds generalizing s number with
  | zero => exact .throw (.drop fun _ => rfl)
  | succ rounds ih =>
    rw [Step.sweep]
    refine .get_bind ?_
    dsimp only
    split
    case isTrue hnone =>
      refine .turn (r := { store := s }) ?_ (.pure rfl)
      exact if_pos hnone
    case isFalse hsome =>
      split
      · exact .throw (.drop fun _ => rfl)
      · refine .turn (if_neg hsome) ?_
        refine .bind ((c.mirrors_prepare c.workers number _ _ s).drop fun _ => rfl) fun _ s₁ => ?_
        refine .modify_bind (.turn rfl ?_)
        exact .bind ((c.mirrors_sweepRoots bound _ _ _).drop fun _ => rfl) fun _ s₂ => ih (number + 1) s₂

/-- A step goes along a path of the machine. -/
theorem mirrors_runWithin (c : Crew) (bound : Nat) (cancelled : Bool) (s : Store) :
    Mirrors (c.start s) [] (c.step.runWithin bound cancelled) (fun _ => []) s := by
  unfold Step.runWithin
  exact .modify_bind (c.mirrors_sweep _ cancelled _ 1 _)

end Crew

end Schemata
