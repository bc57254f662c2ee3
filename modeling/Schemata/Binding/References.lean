import Schemata.Binding.Borrow
import Schemata.Report.Diagnostic

/-!
# Binding references

Every reference of a field is bound: natives are marked, forward references lead to inner types and
dependencies to roots. A type that only wraps one text value is not referred to: its own types take
the place of the reference, and its facets, help and default serve where the field has none.
-/

namespace Schemata

open Compile

/-- The reference of a field of a type at a position. -/
def refAt (h : Handle) (i k : Nat) : Compile FieldType := do
  pure ((← fieldOf h i).types[k]?.getD {})

def updateRef (h : Handle) (i k : Nat) (g : FieldType → FieldType) : Compile Unit :=
  updateField h i fun f => { f with types := f.types.modify k g }

/-- Whether a type stands for the one value that it wraps. -/
def SchemaType.isTransparent (t : SchemaType) : Bool :=
  t.isSimple && !t.fields.any Field.isList

/-- Binds the references that a field took over from `source`, at the given positions. -/
def bindCopies (finder : Finder) (source h : Handle) (i : Nat) : List Nat → Compile Unit
  | [] => pure ()
  | k :: rest => do
    let ft ← refAt h i k
    if ft.forward then
      let ref ← borrow finder source h ft.qname
      updateRef h i k fun ft => { ft with reference := ref }
    bindCopies finder source h i rest

/-- Takes over what a field lacks from the text field of a type that it sees through, given the
names of the types taken over. -/
def Field.adopt (f text : Field) (names : List QName) : Field :=
  let tokens := f.restrictions.tokens || names.any QName.isTokenList
  let own := { f.restrictions with tokens }
  let adoptsDefault := f.defaultValue == "" && text.defaultValue != ""
  { f with
    restrictions := own.merge (text.restrictions.merge own)
    help := if f.help = "" then text.help else f.help
    defaultValue := if adoptsDefault then text.defaultValue else f.defaultValue
    fixed := if adoptsDefault then text.fixed else f.fixed }

/-- Puts the types of the text field of `source` in the place of a reference. Returns how many there
are. -/
def seeThrough (finder : Finder) (source h : Handle) (i k : Nat) : Compile Nat := do
  let types := (← fieldOf source 0).types
  updateField h i fun f =>
    { f with types := f.types.take k ++ types ++ f.types.drop (k + 1) }
  let places := (List.range types.length).map (k + ·)
  bindCopies finder source h i places
  let text ← fieldOf source 0
  updateField h i fun f =>
    f.adopt text (((f.types.drop k).take types.length).map (·.qname))
  pure types.length

/-- Binds a forward reference. Returns how many references stand in its place. -/
def bindForward (finder : Finder) (h : Handle) (i k : Nat) (ft : FieldType) : Compile Nat := do
  if ft.circular then
    updateRef h i k fun ft => { ft with reference := h }
    pure 1
  else
    let inner ← finder.findInner h ft.qname
    if (← typeOf inner).isTransparent then
      let count ← seeThrough finder inner h i k
      dropInner h inner
      pure count
    else
      updateRef h i k fun ft => { ft with reference := inner }
      pure 1

/-- Binds a dependency. Returns how many references stand in its place. -/
def bindDependency (finder : Finder) (h : Handle) (i k : Nat) (ft : FieldType) :
    Compile Nat := do
  match ← finder.findPreferred ft.qname (← fieldOf h i).tag with
  | none =>
    let ft ← refAt h i k
    warn Code.resetAbsentType (← typeOf h).qname.text (← fieldOf h i).name
      ("reset absent type " ++ ft.qname.text ++ " to " ++ Native.string.text ++
        (← get).hint ft.qname)
    updateRef h i k fun _ => .ofNative Native.string
    pure 1
  | some source =>
    if source ≠ h ∧ (← typeOf source).isTransparent then seeThrough finder source h i k
    else
      updateRef h i k fun ft => { ft with reference := source }
      pure 1

/-- Binds a number of references of a field, from a position on. -/
def bindFrom (finder : Finder) (h : Handle) (i : Nat) : Nat → Nat → Compile Unit
  | 0, _ => pure ()
  | count + 1, k => do
    let ft ← refAt h i k
    if ft.native || ft.qname.isNative then
      updateRef h i k fun ft => { ft with native := true }
      if ft.qname.isTokenList then
        updateField h i fun f => { f with restrictions.tokens := true }
      bindFrom finder h i count (k + 1)
    else
      let placed ← if ft.forward then bindForward finder h i k ft
        else bindDependency finder h i k ft
      bindFrom finder h i count (k + placed)

/-- Drops references to a name that another one has already, and the type for anything beside
others. -/
def distinctTypes (types : List FieldType) : List FieldType :=
  let distinct := types.foldl (fun kept ft =>
    if kept.any (FieldType.names ft.qname) then kept else kept ++ [ft]) []
  if distinct.length > 1 then
    distinct.filter fun ft => !(ft.native && ft.qname == Native.anyType)
  else distinct

/-- Binds the references of the fields at the given positions. -/
def bindFields (finder : Finder) (h : Handle) : List Nat → Compile Unit
  | [] => pure ()
  | i :: rest => do
    if (← get).config.output.ignorePatterns then
      updateField h i fun f => { f with restrictions.pattern := none }
    bindFrom finder h i (← fieldOf h i).types.length 0
    updateField h i fun f => { f with types := distinctTypes f.types }
    bindFields finder h rest

/-- Binds every reference of the fields of a type. -/
def bindReferences (finder : Finder) (h : Handle) : Compile Unit := do
  bindFields finder h (List.range (← typeOf h).fields.length)

end Schemata
