import Schemata.Name.Key
import Schemata.Output.Layout
import Schemata.Report.Diagnostic
import Schemata.Store.Basic

/-!
# Unique type names

Roots of one scope whose names have one key are renamed, and every reference that is bound to a
renamed root follows. Of two roots of different constructs one is told apart by its construct where
that name is free; otherwise one keeps its name, an element if there is one, and the others are
numbered.
-/

namespace Schemata

/-- Lets the enumeration default of a field follow a type to its new name. -/
def Field.retargetEnum (h : Handle) (q : QName) (f : Field) : Field :=
  { f with defaultEnum := f.defaultEnum.map fun v => if v.ref = h then { v with type := q } else v }

/-- Lets the references of a type follow another type to its new name: those of its fields, their
choices and its bases, and the enumeration defaults of its fields and of their direct choices. -/
def SchemaType.retarget (h : Handle) (q : QName) (t : SchemaType) : SchemaType :=
  let t := t.mapFieldTypes fun ft =>
    if ft.reference == h && !ft.native then { ft with qname := q } else ft
  { t with fields := t.fields.map fun f =>
      let f := f.retargetEnum h q
      { f with choices := f.choices.map (Field.retargetEnum h q) } }

/-- Lets the references in all roots follow a type to its new name. -/
def Store.retarget (s : Store) (h : Handle) (q : QName) : Store :=
  { s with roots := s.roots.map fun e => { e with type := e.type.mapTree (·.retarget h q) } }

/-- Gives a root another local name. -/
def Store.renameRoot (s : Store) (key : Nat) (name : String) : Store :=
  match s.typeOfKey? key with
  | none => s
  | some t =>
    let q := t.qname.withName name
    ((s.rename key q).retarget t.id q).inform Code.renamedType t.qname.text ""
      ("renamed type " ++ t.qname.text ++ " to " ++ q.text)

/-- The store and the keys taken in each scope. -/
structure TypeNaming where
  store : Store
  taken : List (String × List String)

namespace TypeNaming

def takenIn (n : TypeNaming) (scope : String) : List String :=
  (n.taken.lookup scope).getD []

def take (n : TypeNaming) (scope : String) (keys : List String) : TypeNaming :=
  { n with taken := (scope, keys) :: n.taken }

def rename (n : TypeNaming) (e : Entry) (name : String) : TypeNaming :=
  { n with store := n.store.renameRoot e.key name }

/-- Gives a root the first free alternative of its name. -/
def number (scope : String) (n : TypeNaming) (e : Entry) : TypeNaming :=
  let (name, keys) := Name.nextFree e.type.name (n.takenIn scope)
  (n.take scope keys).rename e name

/-- Tells two roots of different constructs apart by the construct of one that is no element. -/
def tellApart? (n : TypeNaming) (scope : String) (a b : Entry) : Option TypeNaming :=
  if a.type.tag = b.type.tag then none
  else
    let target := if b.type.isElement then a else b
    let name := target.type.name ++ target.type.tag.suffixWord
    let key := Name.key name
    if (n.takenIn scope).contains key then none
    else some ((n.take scope (key :: n.takenIn scope)).rename target name)

/-- Numbers all but one of the roots of a list. -/
def numberOthers (n : TypeNaming) (scope : String) (group : List Entry) : TypeNaming :=
  let keeper := (group.find? (·.type.isElement)).or group.head?
  (group.filter fun e => some e.key != keeper.map (·.key)).foldl (number scope) n

/-- Settles the roots of a scope whose names have one key. -/
def settle (n : TypeNaming) (scope : String) (group : List Entry) : TypeNaming :=
  match group with
  | [] | [_] => n
  | [a, b] => (n.tellApart? scope a b).getD (n.numberOthers scope group)
  | group => n.numberOthers scope group

end TypeNaming

/-- Makes the names of the roots unique within their scopes. -/
def Store.nameTypes (s : Store) : Store :=
  let shared := sharedDirectories s.types
  let placed := s.roots.map fun e =>
    ((s.config.output.scope shared e.type, Name.key e.type.name), e)
  let scopes := (placed.map (·.1.1)).eraseDups
  let taken := scopes.map fun scope =>
    (scope, (placed.filter (·.1.1 == scope)).map (·.1.2))
  let groups := (placed.map (·.1)).eraseDups
  let start : TypeNaming := { store := s, taken }
  (groups.foldl (fun n group =>
    n.settle group.1 ((placed.filter (·.1 == group)).map (·.2))) start).store

end Schemata
