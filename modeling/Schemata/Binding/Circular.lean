import Schemata.Store.Basic

/-!
# Circular references

A dependency is circular when its target leads back to the type that declares it. References are
followed from every type, nested ones included; a root also owns the references of all that is
nested in it.
-/

namespace Schemata

/-- The handles that a type refers to itself. -/
def SchemaType.boundRefs (t : SchemaType) : List Handle :=
  (t.fieldTypes.filter fun ft => !ft.native && ft.reference != 0).map (·.reference)

/-- Adds a type of a tree and its references to a graph; what is nested also counts for the root. -/
def addReferences (root : Handle) (g : KeyedGraph Handle) (t : SchemaType) : KeyedGraph Handle :=
  t.boundRefs.foldl (fun g ref =>
    let g := g.addEdge t.id ref
    if t.id = root then g else g.addEdge root ref) (g.addNode t.id)

/-- The graph of all bound references. -/
def Store.referenceGraph (s : Store) : KeyedGraph Handle :=
  s.types.foldl (fun g root => root.walk.foldl (addReferences root.id) g) {}

/-- Whether a reference of a type leads back to the type. -/
def isCircular (g : KeyedGraph Handle) (declaring target : Handle) : Bool :=
  target != 0 && (target == declaring || g.reachable target declaring)

/-- Flags the dependencies of a type that lead back to it. -/
def SchemaType.flagCircular (t : SchemaType) (g : KeyedGraph Handle) : SchemaType :=
  t.mapFieldTypes fun ft =>
    if ft.native || ft.forward then ft
    else { ft with circular := isCircular g t.id ft.reference }

end Schemata
