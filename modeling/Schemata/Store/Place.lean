import Schemata.Store.Basic

/-!
# Places of types

A place names a type by where it is: the number of its entry and the way down through the inner
types, by position.
-/

namespace Schemata

structure Place where
  key : Nat
  way : List Nat := []
deriving DecidableEq, Repr, Inhabited

namespace SchemaType

mutual

/-- The tree from the top, every type with the way that leads to it. -/
def ways : SchemaType → List (List Nat × SchemaType)
  | t@⟨_, _, _, _, _, _, _, _, _, _, _, _, _, _, _, _, inner, _, _, _⟩ => ([], t) :: waysAll inner 0

def waysAll : List SchemaType → Nat → List (List Nat × SchemaType)
  | [], _ => []
  | t :: ts, n => (ways t).map (fun (way, u) => (n :: way, u)) ++ waysAll ts (n + 1)

end

/-- The type that a way leads to. -/
def at? : List Nat → SchemaType → Option SchemaType
  | [], t => some t
  | n :: way, t => t.inner[n]?.bind (at? way)

end SchemaType

namespace Store

/-- The type at a place. -/
def at? (s : Store) (p : Place) : Option SchemaType :=
  (s.typeOfKey? p.key).bind (SchemaType.at? p.way)

/-- Where the root or nested type with a handle is. -/
def placeOfHandle? (s : Store) (h : Handle) : Option Place :=
  match s.byHandle.get? h with
  | some key => some ⟨key, []⟩
  | none => s.roots.findSome? fun e =>
      (e.type.ways.find? fun p => p.2.id == h).map fun p => ⟨e.key, p.1⟩

/-- Where the first type of a name nested in the type at a place is. -/
def placeOfNested? (s : Store) (p : Place) (q : QName) : Option Place :=
  (s.at? p).bind fun t =>
    (t.ways.find? fun u => u.1 ≠ [] ∧ u.2.qname = q).map fun u => ⟨p.key, p.way ++ u.1⟩

/-- Whether the type at a place is the root that its handle stands for. -/
def containsPlace (s : Store) (p : Place) : Bool :=
  p.way.isEmpty && s.contains p.key

end Store

end Schemata
