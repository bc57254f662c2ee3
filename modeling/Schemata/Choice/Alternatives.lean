import Schemata.Inherit.Bases
import Schemata.Name.Key

/-!
# Distinguishable alternatives

Choices of a compound field whose types lead to the same target, or to natives of one kind, cannot
be told apart by their values. Each of them is wrapped in a type of its own: natives become its
text, other types its bases.
-/

namespace Schemata

open Compile

/-- What values of a type are recognised by. -/
inductive TargetKey where
  | native (kind : ValueKind)
  | bound (handle : Handle)
  | named (text : String)
deriving DecidableEq, Repr

def FieldType.targetKey (ft : FieldType) : TargetKey :=
  if ft.native then .native ft.kind
  else if ft.reference ≠ 0 then .bound ft.reference
  else .named ft.qname.text

def Field.targetKeys (f : Field) : List TargetKey :=
  f.types.map FieldType.targetKey

/-- Whether a choice shares a key with another, or has one twice. -/
def isAmbiguous (choices : List Field) (choice : Field) : Bool :=
  let keys := choices.flatMap Field.targetKeys
  choice.targetKeys.any fun k => keys.count k > 1

/-- The text field of the wrapper of a choice, if the choice has native types. -/
def Field.wrappedValue? (choice : Field) : Option Field :=
  match choice.types.filter (·.native) with
  | [] => none
  | natives => some
      { tag := .extension
        name := valueFieldName
        types := natives
        restrictions := choice.restrictions.withoutBounds
        defaultValue := choice.defaultValue
        fixed := choice.fixed }

/-- The type that wraps a choice of a compound field of `owner`, by a given name. -/
def Field.wrapperType (choice : Field) (owner : SchemaType) (q : QName) : SchemaType :=
  { qname := q
    tag := .element
    location := owner.location
    status := .cleaned
    help := choice.help
    nsMap := owner.nsMap
    fields := choice.wrappedValue?.toList
    extensions := (choice.types.filter (!·.native)).map fun ft =>
      { tag := .extension, type := ft } }

/-- A choice that refers to its wrapper only. -/
def Field.referTo (choice : Field) (ft : FieldType) : Field :=
  { choice with types := [ft], defaultValue := "", fixed := false, defaultEnum := none }

/-- A name for a new root: the given one, or its first alternative that is free in its namespace. -/
def Store.freeRootName (s : Store) (q : QName) : QName :=
  match s.lookup? q fun _ => true with
  | none => q
  | some _ =>
    let taken := (s.types.filter (·.ns == q.ns)).map fun t => Name.key t.name
    q.withName (Name.nextFree q.name taken).1

/-- A name for a new inner type that no other inner type has. -/
def SchemaType.freeInnerName (t : SchemaType) (q : QName) : QName :=
  q.withName (Name.unique q.name (t.inner.map fun u => Name.key u.name)).1

/-- Wraps the choice at a position in a new root or a new inner type. -/
def wrapChoice (h : Handle) (i j : Nat) : Compile Unit := do
  let owner ← typeOf h
  let choice := (← fieldOf h i).choices[j]?.getD {}
  let ns := if choice.ns = "" then owner.ns else choice.ns
  let refer := fun (ft : FieldType) =>
    updateField h i fun f => { f with choices := f.choices.modify j (·.referTo ft) }
  let ref ← modifyGet fun s => (s.nextHandle, { s with nextHandle := s.nextHandle + 1 })
  if (← get).config.output.unnestClasses then
    let q := (← get).freeRootName ⟨ns, owner.name ++ "_" ++ choice.name⟩
    let wrapper := { choice.wrapperType owner q with id := ref, localType := true }
    modify (·.insert wrapper)
    refer { FieldType.ofDependency q with reference := ref }
  else
    let q := owner.freeInnerName ⟨ns, choice.name⟩
    let wrapper := { choice.wrapperType owner q with id := ref }
    update h fun t => { t with inner := t.inner ++ [wrapper] }
    refer (.ofForward q ref)

/-- Wraps the ambiguous choices of the field at a position. -/
def separateChoices (h : Handle) (i : Nat) : Compile Unit := do
  let f ← fieldOf h i
  if f.isChoice && f.choices.length > 1 then
    let ambiguous := (f.choices.zipIdx.filter fun (c, _) => isAmbiguous f.choices c).map (·.2)
    ambiguous.forM (wrapChoice h i)

/-- Makes the choices of every compound field of a type distinguishable. -/
def separateAlternatives (h : Handle) : Compile Unit := do
  (List.range (← typeOf h).fields.length).forM (separateChoices h)

end Schemata
