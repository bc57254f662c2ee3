import Schemata.Model.SchemaType

/-!
# Parts and their owners

The roots as a forest of parts: types, fields, alternatives, bases and references. Every part has a
label, and a label that occurs twice stands for one part with two owners. `Forest.ofTypes` gives
every part a label of its own; `Forest.share?` gives a part a second owner.
-/

namespace Schemata

structure ReferencePart where
  label : Nat
  type : FieldType
deriving DecidableEq, Repr, Inhabited

structure FieldPart where
  label : Nat
  name : String
  types : List ReferencePart := []
  choices : List FieldPart := []
deriving Repr, Inhabited

structure BasePart where
  label : Nat
  type : ReferencePart
deriving DecidableEq, Repr, Inhabited

structure TypePart where
  label : Nat
  handle : Handle
  qname : QName
  modulePath : String
  fields : List FieldPart := []
  bases : List BasePart := []
  inner : List TypePart := []
deriving Repr, Inhabited

structure Forest where
  roots : List TypePart := []
  /-- A label beyond all that are in use. -/
  next : Nat := 0
deriving Repr, Inhabited

mutual

/-- The references of a field and of its choices. -/
def FieldPart.references : FieldPart → List FieldType
  | ⟨_, _, types, choices⟩ => types.map (·.type) ++ referencesOf choices

def FieldPart.referencesOf : List FieldPart → List FieldType
  | [] => []
  | f :: fs => f.references ++ referencesOf fs

end

/-- The references of a type itself: those of its fields, their choices and its bases. -/
def TypePart.references (t : TypePart) : List FieldType :=
  t.fields.flatMap FieldPart.references ++ t.bases.map (·.type.type)

mutual

/-- The type and all that is nested in it, every type before its inner types. -/
def TypePart.walk : TypePart → List TypePart
  | t@⟨_, _, _, _, _, _, inner⟩ => t :: walkAll inner

def TypePart.walkAll : List TypePart → List TypePart
  | [] => []
  | t :: ts => walk t ++ walkAll ts

end

/-- Labels references from `n` on. -/
def ReferencePart.ofTypes (types : List FieldType) (n : Nat) : List ReferencePart × Nat :=
  (types.zipIdx.map fun (ft, i) => ⟨n + i, ft⟩, n + types.length)

mutual

/-- Labels a field and its parts from `n` on. -/
def FieldPart.ofField : Field → Nat → FieldPart × Nat
  | ⟨_, name, _, _, types, choices, _, _, _, _, _, _, _, _, _⟩, n =>
    let (types, next) := ReferencePart.ofTypes types (n + 1)
    let (choices, next) := ofFields choices next
    (⟨n, name, types, choices⟩, next)

def FieldPart.ofFields : List Field → Nat → List FieldPart × Nat
  | [], n => ([], n)
  | f :: fs, n =>
    let (f, n) := ofField f n
    let (fs, n) := ofFields fs n
    (f :: fs, n)

end

/-- Labels bases and their references from `n` on. -/
def BasePart.ofExtensions (extensions : List Extension) (n : Nat) : List BasePart × Nat :=
  (extensions.zipIdx.map fun (e, i) => ⟨n + 2 * i, ⟨n + 2 * i + 1, e.type⟩⟩,
    n + 2 * extensions.length)

mutual

/-- Labels a type and its parts from `n` on. -/
def TypePart.ofType : SchemaType → Nat → TypePart × Nat
  | t@⟨id, qname, _, _, _, _, _, _, _, _, _, _, _, _, fields, extensions, inner, _, _, _⟩, n =>
    let (fields, next) := FieldPart.ofFields fields (n + 1)
    let (bases, next) := BasePart.ofExtensions extensions next
    let (inner, next) := ofTypes inner next
    (⟨n, id, qname, t.modulePath, fields, bases, inner⟩, next)

def TypePart.ofTypes : List SchemaType → Nat → List TypePart × Nat
  | [], n => ([], n)
  | t :: ts, n =>
    let (t, n) := ofType t n
    let (ts, n) := ofTypes ts n
    (t :: ts, n)

end

/-- The forest of types that share nothing. -/
def Forest.ofTypes (types : List SchemaType) : Forest :=
  let (roots, next) := TypePart.ofTypes types 0
  { roots, next }

mutual

/-- Changes the field with a label, wherever it is owned. -/
def FieldPart.updateAt (label : Nat) (g : FieldPart → FieldPart) : FieldPart → FieldPart
  | ⟨own, name, types, choices⟩ =>
    let f : FieldPart := ⟨own, name, types, updateAllAt label g choices⟩
    if own = label then g f else f

def FieldPart.updateAllAt (label : Nat) (g : FieldPart → FieldPart) :
    List FieldPart → List FieldPart
  | [] => []
  | f :: fs => updateAt label g f :: updateAllAt label g fs

end

mutual

/-- Changes every type of a tree, inner types first. -/
def TypePart.mapTree (g : TypePart → TypePart) : TypePart → TypePart
  | ⟨label, handle, qname, modulePath, fields, bases, inner⟩ =>
    g ⟨label, handle, qname, modulePath, fields, bases, mapTrees g inner⟩

def TypePart.mapTrees (g : TypePart → TypePart) : List TypePart → List TypePart
  | [] => []
  | t :: ts => mapTree g t :: mapTrees g ts

end

namespace Forest

def updateType (forest : Forest) (label : Nat) (g : TypePart → TypePart) : Forest :=
  let change := fun (t : TypePart) => if t.label = label then g t else t
  { forest with roots := TypePart.mapTrees change forest.roots }

def updateField (forest : Forest) (label : Nat) (g : FieldPart → FieldPart) : Forest :=
  let change := fun (t : TypePart) => { t with fields := FieldPart.updateAllAt label g t.fields }
  { forest with roots := TypePart.mapTrees change forest.roots }

/-- The kinds of parts that can be given a second owner. -/
inductive Shared where
  /-- A root becomes another root. -/
  | root
  /-- A field becomes a field of another root. -/
  | field
  /-- A field becomes an alternative of the first field of another root. -/
  | choice
  /-- The first reference of a field becomes one of the first field of another root. -/
  | reference
  /-- A base becomes a base of another root. -/
  | base
  /-- The reference of a base becomes that of a new base of another root. -/
  | baseReference
  /-- An inner type becomes an inner type of another root. -/
  | inner
deriving DecidableEq, Repr

/-- Gives the `n`-th part of a kind of one root a second owner, the root at `target`; nothing when there
is no such part or no such owner. -/
def share? (forest : Forest) (kind : Shared) (start n target : Nat) : Option Forest := do
  let source ← forest.roots[start]?
  match kind with
  | .root => pure { forest with roots := forest.roots ++ [source] }
  | .field =>
    let f ← source.fields[n]?
    let owner ← forest.roots[target]?
    pure (forest.updateType owner.label fun t => { t with fields := t.fields ++ [f] })
  | .choice =>
    let f ← source.fields[n]?
    let owner ← (← forest.roots[target]?).fields.head?
    pure (forest.updateField owner.label fun g => { g with choices := g.choices ++ [f] })
  | .reference =>
    let ft ← (← source.fields[n]?).types.head?
    let owner ← (← forest.roots[target]?).fields.head?
    pure (forest.updateField owner.label fun g => { g with types := g.types ++ [ft] })
  | .base =>
    let b ← source.bases[n]?
    let owner ← forest.roots[target]?
    pure (forest.updateType owner.label fun t => { t with bases := t.bases ++ [b] })
  | .baseReference =>
    let b ← source.bases[n]?
    let owner ← forest.roots[target]?
    let fresh : BasePart := ⟨forest.next, b.type⟩
    let forest := forest.updateType owner.label fun t => { t with bases := t.bases ++ [fresh] }
    pure { forest with next := forest.next + 1 }
  | .inner =>
    let u ← source.inner[n]?
    let owner ← forest.roots[target]?
    pure (forest.updateType owner.label fun t => { t with inner := t.inner ++ [u] })

end Forest

end Schemata
