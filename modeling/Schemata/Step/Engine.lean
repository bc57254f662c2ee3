import Schemata.Lists.Groups
import Schemata.Step.Pass

/-!
# Steps

A step applies its passes, in order, to every type whose status is below its working status. A type
has the working status while the passes are at it and the finished one afterwards; the inner types
of a type come before the type itself. Sweeps over the roots are repeated until nothing is left to
do, because a pass may add roots.

In a sequential step a type that is looked up is worked on first. Looking up leads from a type to
others that have not been begun, so the depth of such calls is bounded by the number of types; the
bound is explicit, and a step that exceeds it fails.
-/

namespace Schemata

open Compile

structure Step where
  name : String
  busy : Status
  done : Status
  passes : List Pass
  /-- The types of a parallel step are independent: looking one up leaves it as it is. -/
  parallel : Bool := false

/-- The first root of a name that satisfies the condition. While the step has not begun it, it is
worked on by `process` and looked up anew. -/
def findProcessed (busy : Status) (process : Handle → Compile Unit) (q : QName)
    (p : SchemaType → Bool) : Nat → Compile (Option Handle)
  | 0 => throw { cause := .unfinished }
  | rounds + 1 => do
    match (← get).lookup? q p with
    | none => pure none
    | some t =>
      if t.status < busy then
        process t.id
        findProcessed busy process q p rounds
      else pure (some t.id)

/-- The first type of a name nested in a type. -/
def findNested (h : Handle) (q : QName) : Compile SchemaType := do
  let parent ← typeOf h
  match parent.nested? q with
  | some t => pure t
  | none => throw (innerNotFound parent q)

/-- Looks types up and works on those that the step has not begun. -/
def Finder.processing (busy : Status) (rounds : Nat) (process : Handle → Compile Unit) : Finder where
  find q p := findProcessed busy process q p rounds
  findInner h q := do
    let t ← findNested h q
    if t.status < busy then process t.id
    pure t.id

/-- Looks types up as they are. -/
def Finder.plain : Finder where
  find q p := do pure (((← get).lookup? q p).map (·.id))
  findInner h q := do pure (← findNested h q).id

/-- Applies passes to a type; a failure is reported under the name that the type has then. -/
def runPasses (place : String) (rounds : Nat) (finder : Finder) (h : Handle) :
    List Pass → Compile Unit
  | [] => pure ()
  | pass :: rest => do
    tryCatch (pass.run rounds finder h) fun f => do
      let t ← typeOf h
      throw ((f.within t.qname.text).within place)
    runPasses place rounds finder h rest

/-- Works on one type. -/
def Step.apply (step : Step) (rounds : Nat) (finder : Finder) (h : Handle) : Compile Unit := do
  update h fun t => { t with status := step.busy }
  runPasses step.name rounds finder h step.passes
  update h fun t => { t with status := step.done }

/-- Works on those of the given types that the step has not begun. -/
def applyPending (busy : Status) (apply : Handle → Compile Unit) : List Handle → Compile Unit
  | [] => pure ()
  | h :: rest => do
    if (← typeOf h).status < busy then apply h
    applyPending busy apply rest

/-- Works on a type and its inner types, inner types first, until the step has begun them all. -/
def applyTree (busy : Status) (apply : Handle → Compile Unit) (root : Handle) :
    Nat → Compile Unit
  | 0 => throw { cause := .unfinished }
  | rounds + 1 => do
    let pending := ((← typeOf root).walk.filter (·.status < busy)).map (·.id)
    if pending.isEmpty then pure ()
    else
      applyPending busy apply pending.reverse
      applyTree busy apply root rounds

/-- Works on a tree; `depth` bounds how far look-ups lead from type to type. -/
def Step.processTree (step : Step) (rounds : Nat) : Nat → Handle → Compile Unit
  | 0, _ => throw { cause := .unfinished }
  | depth + 1, root =>
    let finder := if step.parallel then .plain
      else .processing step.busy rounds (step.processTree rounds depth)
    applyTree step.busy (step.apply rounds finder) root rounds

/-- Works on the given roots. A sequential step skips what it has reached by a look-up and what is
no root any more. -/
def Step.sweepRoots (step : Step) (bound : Nat) : List Nat → Compile Unit
  | [] => pure ()
  | key :: rest => do
    match (← get).typeOfKey? key with
    | none => pure ()
    | some t =>
      if step.parallel || (t.status < step.busy && (← get).contains key) then
        step.processTree bound bound t.id
    step.sweepRoots bound rest

/-- Sweeps over the roots until the step has begun them all. -/
def Step.sweep (step : Step) (bound : Nat) (cancelled : Bool) : Nat → Nat → Compile Unit
  | 0, _ => throw { cause := .unfinished }
  | rounds + 1, number => do
    let pending := ((← get).roots.filter (·.type.status < step.busy)).map (·.key)
    if pending.isEmpty then pure ()
    else if cancelled then throw { cause := .cancelled }
    else
      step.passes.forM Pass.prepare
      modify (·.record (.swept step.name number pending.length))
      step.sweepRoots bound pending
      step.sweep bound cancelled rounds (number + 1)

/-- Runs a step within a bound on rounds and depth. -/
def Step.runWithin (step : Step) (bound : Nat) (cancelled : Bool) : Compile Unit := do
  modify fun s => { s with memory := { groupMarker := groupMarkerBase } }
  step.sweep bound cancelled bound 1

/-- How much a field holds, choices included. -/
def Field.weight (f : Field) : Nat :=
  1 + f.choices.length + f.allTypes.length

/-- How much a type holds, without its inner types. -/
def SchemaType.weight (t : SchemaType) : Nat :=
  1 + Lists.total (t.fields.map Field.weight) + t.extensions.length + t.substitutions.length

/-- How much the roots hold. -/
def Store.weight (s : Store) : Nat :=
  Lists.total ((SchemaType.walkAll s.types).map SchemaType.weight)

/-- A bound that grows faster than copying along references can make the roots grow. -/
def Store.bound (s : Store) : Nat :=
  Nat.pow 2 (s.weight + 16)

/-- Runs a step over all roots. -/
def Step.run (step : Step) (cancelled : Bool) : Compile Unit := do
  step.runWithin (← get).bound cancelled

end Schemata
