import Schemata.Report.Diagnostic
import Schemata.Store.Basic

/-!
# Validation

Before anything else, roots of one name are sorted out: definitions with a base that does not exist
are dropped, of several definitions of one construct one is kept, and an element that is only another
name for the complex type of its name is merged with it. An override wins over a redefinition, a
redefinition over the rest, and else the last definition wins; a redefinition that refers to itself
takes in what it redefines.
-/

namespace Schemata

/-- Where a definition comes from, for messages. -/
def SchemaType.origin (t : SchemaType) : String :=
  if t.location = "" then "unknown location" else Text.quote t.location

/-- Whether a base of the type is neither native nor a root. -/
def Store.hasDanglingBase (s : Store) (t : SchemaType) : Bool :=
  t.extensions.any fun e =>
    !(e.type.native || e.type.qname.isNative) && (s.lookup? e.type.qname fun _ => true).isNone

/-- Drops the entries whose bases are missing. Returns those that stay. -/
def Store.dropInvalid (s : Store) (entries : List Entry) : List Entry × Store :=
  let dropped := entries.filter fun e => s.hasDanglingBase e.type
  let kept := entries.filter fun e => !s.hasDanglingBase e.type
  let s := dropped.foldl (fun s e =>
    s.warn Code.droppedInvalidType e.type.qname.text ""
      ("dropped duplicate definition from " ++ e.type.origin ++ " with unresolved base")) s
  (kept, s.remove (dropped.map (·.key)))

/-- Whether a field is a group reference to a name. -/
def Field.refersToGroup (f : Field) (q : QName) : Bool :=
  f.isGroup && f.hasType q

/-- Takes an earlier definition into one that refers to its own name, as a base or as a group. -/
def SchemaType.takeIn (t earlier : SchemaType) : SchemaType :=
  let own := fun (e : Extension) => e.type.qname == t.qname
  let bases := t.extensions.flatMap fun e => if own e then earlier.extensions else [e]
  let inherited := (t.extensions.filter own).flatMap fun _ => earlier.fields
  let fields := (inherited ++ t.fields).flatMap fun f =>
    if f.refersToGroup t.qname then earlier.fields else [f]
  { t with extensions := bases, fields }

/-- The position of the definition that wins by its container, if one does. -/
def winner? (group : List Entry) : Option Nat :=
  (group.findIdx? (·.type.container == .override)).or
    (group.findIdx? (·.type.container == .redefine))

/-- Keeps one of several definitions of a construct. Returns its entry number. -/
def Store.elect (s : Store) (tag : Tag) (group : List Entry) : Nat × Store :=
  let last := group.length - 1
  let i := (winner? group).getD last
  let won := group[i]?.getD default
  let s := if (winner? group).isSome then s
    else s.warn Code.duplicateType won.type.qname.text ""
      (toString group.length ++ " " ++ tag.text ++ " definitions, keeping the last one from " ++
        won.type.origin)
  let others := group.eraseIdx i
  let s := if won.type.container = .redefine then
      others.foldl (fun s e => s.updateEntry won.key (·.takeIn e.type)) s
    else s
  (won.key, s)

/-- Keeps one definition of every construct. Returns the entries that stay, as they are now. -/
def Store.resolveDuplicates (s : Store) (entries : List Entry) : List Entry × Store :=
  let tags := (entries.map (·.type.tag)).eraseDups
  let (kept, s) := tags.foldl (fun (kept, s) tag =>
    match entries.filter (·.type.tag == tag) with
    | [only] => (kept ++ [only.key], s)
    | group =>
      let (key, s) := s.elect tag group
      (kept ++ [key], s)) (([] : List Nat), s)
  let s := s.remove ((entries.map (·.key)).filter (!kept.contains ·))
  ((entries.map (·.key)).filter kept.contains |>.filterMap fun key =>
    (s.typeOfKey? key).map fun t => ⟨key, t⟩, s)

/-- Whether an element is only another name for a complex type. -/
def SchemaType.isAliasOf (el ct : SchemaType) : Bool :=
  match el.extensions with
  | [e] => el.fields.isEmpty && e.type.qname == ct.qname
  | _ => false

/-- The complex type as the element that names it. -/
def SchemaType.asElement (ct el : SchemaType) : SchemaType :=
  { ct with
    tag := .element
    nillable := ct.nillable || el.nillable
    isAbstract := el.isAbstract
    help := if el.help = "" then ct.help else el.help
    substitutions := ct.substitutions ++ el.substitutions }

/-- Merges the first element with the first complex type, if it is only another name for it. -/
def Store.mergeGlobal (s : Store) (entries : List Entry) : Store :=
  match entries.find? (·.type.tag == .element), entries.find? (·.type.tag == .complexType) with
  | some el, some ct =>
    if el.type.isAliasOf ct.type then
      let s := s.updateEntry ct.key (·.asElement el.type)
      let s := s.inform Code.mergedGlobalType ct.type.qname.text ""
        "merged element into its complex type"
      s.remove [el.key]
    else s
  | _, _ => s

/-- Sorts out the roots of one name. -/
def Store.validateName (s : Store) (q : QName) : Store :=
  let bucket := s.bucket q
  if bucket.length < 2 then s
  else
    let (bucket, s) := s.dropInvalid bucket
    if bucket.length < 2 then s
    else
      let (bucket, s) := s.resolveDuplicates bucket
      s.mergeGlobal bucket

/-- Sorts out the roots of every name. -/
def Store.validate (s : Store) : Store :=
  s.qnames.foldl validateName s

end Schemata
