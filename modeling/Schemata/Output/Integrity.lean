import Schemata.Name.Key
import Schemata.Output.Parts
import Schemata.Report.Failure

/-!
# Integrity

Three conditions on the roots before they are handed out: no part has two owners, every reference
is bound to a type of the name that it gives, and the names in a module have different keys. The
first violation in this order is reported.
-/

namespace Schemata

/-- Where a part of a type is: the names that lead to it from a root. -/
inductive TypePath where
  | root (name : String)
  /-- A field or an inner type. -/
  | child (parent : TypePath) (name : String)
  /-- An alternative of a compound field. -/
  | choice (parent : TypePath) (name : String)
  /-- The base at a position. -/
  | base (parent : TypePath) (position : Int)
deriving DecidableEq, Repr, Inhabited

namespace TypePath

def text : TypePath → String
  | root name => name
  | child parent name => parent.text ++ "." ++ name
  | choice parent name => parent.text ++ "|" ++ name
  | base parent position => parent.text ++ ".extension[" ++ toString position ++ "]"

end TypePath

/-- That a part is reached from a root by a path. -/
structure Holding where
  label : Nat
  /-- The name of the root. -/
  root : String
  path : TypePath
deriving DecidableEq, Repr, Inhabited

mutual

/-- The holdings of a field, its references and its choices. -/
def FieldPart.holdings (root : String) (path : TypePath) : FieldPart → List Holding
  | ⟨label, _, types, choices⟩ =>
    ⟨label, root, path⟩ :: types.map (fun r => ⟨r.label, root, path⟩) ++
      holdingsOfChoices root path choices

def FieldPart.holdingsOfChoices (root : String) (path : TypePath) : List FieldPart → List Holding
  | [] => []
  | f :: fs => f.holdings root (path.choice f.name) ++ holdingsOfChoices root path fs

end

/-- The holdings of a base and its reference. -/
def BasePart.holdings (root : String) (path : TypePath) (b : BasePart) : List Holding :=
  [⟨b.label, root, path⟩, ⟨b.type.label, root, path⟩]

mutual

/-- The holdings of a type and its parts: fields, then bases, then inner types, the last inner type
first. -/
def TypePart.holdings (root : String) (path : TypePath) : TypePart → List Holding
  | ⟨label, _, _, _, fields, bases, inner⟩ =>
    ⟨label, root, path⟩ ::
      fields.flatMap (fun f => f.holdings root (path.child f.name)) ++
      bases.zipIdx.flatMap (fun (b, i) => b.holdings root (path.base i)) ++
      holdingsOfInner root path inner

def TypePart.holdingsOfInner (root : String) (path : TypePath) : List TypePart → List Holding
  | [] => []
  | t :: ts => holdingsOfInner root path ts ++ t.holdings root (path.child t.qname.name)

end

/-- All holdings, root after root. -/
def Forest.holdings (forest : Forest) : List Holding :=
  forest.roots.flatMap fun t => t.holdings t.qname.text (.root t.qname.name)

/-- The first holding of a part that is held before, after the earlier holding. -/
def firstShared? : List Holding → List Holding → Option (Holding × Holding)
  | _, [] => none
  | earlier, c :: rest =>
    match earlier.find? (·.label == c.label) with
    | some owner => some (owner, c)
    | none => firstShared? (c :: earlier) rest

/-- The failure for a part with two owners. -/
def sharedFailure (owner other : Holding) : Failure :=
  .ofCompile .crossReference
    ("instance shared by " ++ owner.path.text ++ " and " ++ other.path.text)
    (if owner.root = other.root then [owner.root] else [owner.root, other.root])

mutual

/-- The types of a tree in the order of their holdings, with their handles. -/
def TypePart.bindings : TypePart → List (Handle × QName)
  | ⟨_, handle, qname, _, _, _, inner⟩ => (handle, qname) :: bindingsOf inner

def TypePart.bindingsOf : List TypePart → List (Handle × QName)
  | [] => []
  | t :: ts => bindingsOf ts ++ bindings t

end

/-- The name that a handle stands for; of two types with one handle the later counts. -/
def Forest.nameOf? (forest : Forest) (h : Handle) : Option QName :=
  (forest.roots.flatMap TypePart.bindings).reverse.lookup h

/-- Whether a reference is native or leads to a type of its name. -/
def isBound (nameOf? : Handle → Option QName) (ft : FieldType) : Bool :=
  ft.native || nameOf? ft.reference == some ft.qname

/-- The first reference that is not bound, with the name of the type that it belongs to. -/
def Forest.unbound? (forest : Forest) : Option (QName × FieldType) :=
  (TypePart.walkAll forest.roots).findSome? fun t =>
    (t.references.find? fun ft => !isBound forest.nameOf? ft).map fun ft => (t.qname, ft)

/-- What must differ between two roots. -/
def TypePart.slot (t : TypePart) : String × String :=
  (t.modulePath, Name.key t.qname.name)

/-- The first root whose place is taken, after the root that took it. -/
def firstCollision? : List TypePart → List TypePart → Option (TypePart × TypePart)
  | _, [] => none
  | earlier, t :: rest =>
    match earlier.find? (·.slot == t.slot) with
    | some owner => some (owner, t)
    | none => firstCollision? (t :: earlier) rest

/-- The first violation in a forest, if there is one. -/
def Forest.violation? (forest : Forest) : Option Failure :=
  match firstShared? [] forest.holdings with
  | some (owner, other) => some (sharedFailure owner other)
  | none =>
    match forest.unbound? with
    | some (owner, ft) =>
      some (.ofCompile .unresolvedReference ("referenced by " ++ owner.text) [ft.qname.text])
    | none =>
      (firstCollision? [] forest.roots).map fun (owner, t) =>
        .ofCompile .duplicateType ("names collide in module " ++ t.modulePath)
          [owner.qname.text, t.qname.text]

/-- The first violation among types that share nothing, if there is one. -/
def integrityViolation? (types : List SchemaType) : Option Failure :=
  (Forest.ofTypes types).violation?

end Schemata
