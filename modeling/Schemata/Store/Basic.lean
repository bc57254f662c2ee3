import Schemata.Config.Basic
import Schemata.Digraph.Keyed
import Schemata.Model.SchemaType
import Schemata.Report.Failure

/-!
# The store of types

The store holds the working set of root types in a fixed order, with an index by qualified name and
one by handle. An entry number tells apart two types that happen to share a handle, and stays with
a type for good: one that is no root, or no longer part of a root, is kept aside under its number.

Both indices hold entry numbers. They are brought up to date by the operations that change which
types are roots or what a root is called, for the names concerned only.
-/

namespace Schemata

/-- A finite map kept as a list of pairs, at most one for each key. -/
structure Index (κ α : Type) where
  pairs : List (κ × α) := []
deriving Repr, Inhabited

namespace Index

variable {κ α : Type} [BEq κ]

def get? (m : Index κ α) (k : κ) : Option α :=
  m.pairs.lookup k

def erase (m : Index κ α) (k : κ) : Index κ α :=
  ⟨m.pairs.filter fun p => !(p.1 == k)⟩

def insert (m : Index κ α) (k : κ) (a : α) : Index κ α :=
  ⟨(k, a) :: (m.erase k).pairs⟩

end Index

/-- What happened in a run, in order. -/
inductive Event where
  /-- A warning or a note. -/
  | noted (d : Diagnostic)
  /-- A sweep of a step over a number of types. -/
  | swept (step : String) (sweep types : Nat)
  /-- A stage that ended with a number of root types. -/
  | staged (stage : String) (types : Nat)
deriving DecidableEq, Repr, Inhabited

structure Entry where
  key : Nat
  type : SchemaType
deriving Repr, Inhabited

/-- What the passes of a step remember from type to type. -/
structure Memory where
  /-- The last marker given to an expanded group. -/
  groupMarker : Int := 0
  /-- The members of the substitution groups: head and reference field, in order. -/
  substitutes : List (QName × Field) := []
  /-- The references between types, by handle. -/
  references : KeyedGraph Handle := {}
deriving Repr, Inhabited

structure Store where
  config : Config := {}
  roots : List Entry := []
  /-- Types that are no part of a root. -/
  aside : List Entry := []
  byName : Index QName (List Nat) := {}
  byHandle : Index Handle Nat := {}
  nextKey : Nat := 0
  nextHandle : Handle := 1
  journal : List Event := []
  memory : Memory := {}
deriving Repr, Inhabited

namespace Store

/-- The root types in order. -/
def types (s : Store) : List SchemaType :=
  s.roots.map (·.type)

/-- All entries, roots first. -/
def entries (s : Store) : List Entry :=
  s.roots ++ s.aside

/-- The type with an entry number. -/
def typeOfKey? (s : Store) (key : Nat) : Option SchemaType :=
  (s.entries.find? (·.key == key)).map (·.type)

/-- Changes the type with an entry number. -/
def updateEntry (s : Store) (key : Nat) (g : SchemaType → SchemaType) : Store :=
  let change := fun (e : Entry) => if e.key = key then { e with type := g e.type } else e
  { s with roots := s.roots.map change, aside := s.aside.map change }

/-- The entry numbers of the roots of a name, in order. -/
def namesakes (s : Store) (q : QName) : List Nat :=
  (s.roots.filter (·.type.qname == q)).map (·.key)

/-- Brings the index up to date for a name. -/
def reindex (s : Store) (q : QName) : Store :=
  match s.namesakes q with
  | [] => { s with byName := s.byName.erase q }
  | keys => { s with byName := s.byName.insert q keys }

/-- Takes a type in without making it a root, and gives it an entry number. -/
def enter (s : Store) (t : SchemaType) : Nat × Store :=
  (s.nextKey, { s with
    aside := s.aside ++ [⟨s.nextKey, t⟩]
    nextKey := s.nextKey + 1 })

/-- Gives handles to the types of an entry that have none. -/
def assignHandles (s : Store) (key : Nat) : Store :=
  match s.typeOfKey? key with
  | none => s
  | some t =>
    let (t, next) := t.assignHandles s.nextHandle
    { s.updateEntry key fun _ => t with nextHandle := next }

/-- Makes the type of an entry the last root. -/
def add (s : Store) (key : Nat) : Store :=
  let s := s.assignHandles key
  match s.typeOfKey? key with
  | none => s
  | some t =>
    { s with
      roots := s.roots ++ [⟨key, t⟩]
      aside := s.aside.filter (·.key != key)
      byName := s.byName.insert t.qname ((s.byName.get? t.qname).getD [] ++ [key])
      byHandle := s.byHandle.insert t.id key }

/-- Makes a new type the last root. -/
def insert (s : Store) (t : SchemaType) : Store :=
  let (key, s) := s.enter t
  s.add key

/-- Makes new types the last roots, in order. -/
def insertAll (s : Store) (ts : List SchemaType) : Store :=
  ts.foldl insert s

/-- Keeps an entry aside unless it is there already. -/
def keepAside (s : Store) (e : Entry) : Store :=
  if s.aside.any (·.key == e.key) then s else { s with aside := s.aside ++ [e] }

/-- Takes the given entries, and all that share a handle with one of them, out of the roots. -/
def remove (s : Store) (keys : List Nat) : Store :=
  let given := keys.filterMap s.typeOfKey?
  let drop := given.map (·.id)
  let dropped := s.roots.filter fun e => drop.contains e.type.id
  let s := { s with
    roots := s.roots.filter fun e => !drop.contains e.type.id
    byHandle := dropped.foldl (fun m e => m.erase e.type.id) s.byHandle }
  let s := dropped.foldl keepAside s
  given.foldl (fun s t => s.reindex t.qname) s

/-- Puts an entry in the place of the first root with an entry number. -/
def replaceFirst (key : Nat) (e : Entry) : List Entry → List Entry
  | [] => []
  | cur :: rest => if cur.key = key then e :: rest else cur :: replaceFirst key e rest

/-- Puts the type of an entry in the place of the root with a handle. Without a handle of its own it
takes over the old one, so that references to it stay bound. -/
def replace (s : Store) (old : Handle) (key : Nat) : Except Failure Store :=
  match s.byHandle.get? old with
  | none => .error { cause := .noRoot old }
  | some oldKey =>
    let s := s.updateEntry key fun t => if t.id = 0 then { t with id := old } else t
    let s := s.assignHandles key
    match s.typeOfKey? oldKey, s.typeOfKey? key with
    | some oldType, some t =>
      let s := { s with
        roots := replaceFirst oldKey ⟨key, t⟩ s.roots
        aside := s.aside.filter (·.key != key)
        byHandle := (s.byHandle.erase old).insert t.id key }
      let s := s.keepAside ⟨oldKey, oldType⟩
      .ok ((s.reindex oldType.qname).reindex t.qname)
    | _, _ => .error { cause := .noRoot old }

/-- Gives the type of an entry another name. -/
def rename (s : Store) (key : Nat) (q : QName) : Store :=
  match s.typeOfKey? key with
  | none => s
  | some t => ((s.updateEntry key fun t => { t with qname := q }).reindex t.qname).reindex q

/-- The roots of a name, in order, with their entry numbers. -/
def bucket (s : Store) (q : QName) : List Entry :=
  ((s.byName.get? q).getD []).filterMap fun key => (s.typeOfKey? key).map fun t => ⟨key, t⟩

/-- The first root of a name that satisfies `p`. -/
def lookupEntry? (s : Store) (q : QName) (p : SchemaType → Bool) : Option Entry :=
  (s.bucket q).find? fun e => p e.type

/-- The first root of a name that satisfies `p`. -/
def lookup? (s : Store) (q : QName) (p : SchemaType → Bool) : Option SchemaType :=
  (s.lookupEntry? q p).map (·.type)

/-- The distinct names of the roots in the order of first mention. -/
def qnames (s : Store) : List QName :=
  (s.types.map (·.qname)).eraseDups

/-- Whether an entry is the root that its handle stands for. -/
def contains (s : Store) (key : Nat) : Bool :=
  match s.typeOfKey? key with
  | some t => s.byHandle.get? t.id == some key
  | none => false

/-- The root or nested type with a handle: a root first, else the first in the order of the roots. -/
def ofHandle? (s : Store) (h : Handle) : Option SchemaType :=
  match s.byHandle.get? h with
  | some key => s.typeOfKey? key
  | none => (SchemaType.walkAll s.types).find? (·.id == h)

/-- The type with a handle, wherever it is: in a root or aside. -/
def get? (s : Store) (h : Handle) : Option SchemaType :=
  s.entries.findSome? fun e => e.type.find? h

/-- Changes the type with a handle, wherever it is. -/
def update (s : Store) (h : Handle) (g : SchemaType → SchemaType) : Store :=
  let change := fun (e : Entry) => { e with type := e.type.updateAt h g }
  { s with roots := s.roots.map change, aside := s.aside.map change }

/-- Keeps types aside that have been taken out of a tree. -/
def setAside (s : Store) (ts : List SchemaType) : Store :=
  ts.foldl (fun s t => (s.enter t).2) s

/-- A copy of a tree, with fresh handles. -/
def copy (s : Store) (t : SchemaType) : SchemaType × Store :=
  let (t, next) := t.clone s.nextHandle
  (t, { s with nextHandle := next })

def record (s : Store) (e : Event) : Store :=
  { s with journal := s.journal ++ [e] }

def note (s : Store) (severity : Severity) (code type field message : String) : Store :=
  s.record (.noted { severity, code, message, type, field })

def warn (s : Store) (code type field message : String) : Store :=
  s.note .warning code type field message

def inform (s : Store) (code type field message : String) : Store :=
  s.note .info code type field message

/-- The warnings and notes recorded so far. -/
def diagnostics (s : Store) : Diagnostics :=
  s.journal.foldl (fun ds e => match e with
    | .noted d => ds.add d
    | _ => ds) {}

end Store

end Schemata
