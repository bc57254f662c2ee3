import Schemata.Content.Markers

/-!
# Repeated elements

An element that occurs again after other fields, as in `a, b, a`, cannot keep its order as a field of
its own: the fields from its first to its last occurrence become a repeating choice, in which each
element occurs once. Fields that are declared twice otherwise are merged into one.
-/

namespace Schemata

/-- What a field is recognised by: construct, namespace and name. -/
def Field.identity (f : Field) : String :=
  f.tag.text ++ "\x00" ++ f.ns ++ "\x00" ++ f.name

/-- The types of `more` whose names `types` does not have yet, added at the end. -/
def addTypes (types more : List FieldType) : List FieldType :=
  more.foldl (fun types ft =>
    if types.any (FieldType.names ft.qname) then types else types ++ [ft]) types

/-- A span of fields by position, both ends included. -/
structure Span where
  first : Nat
  last : Nat
deriving DecidableEq, Repr

/-- The positions of the element fields with an identity. -/
def positions (fields : List Field) (identity : String) : List Nat :=
  (fields.zipIdx.filter fun (f, _) => f.isElement && f.identity == identity).map (·.2)

/-- For every element that is repeated with other fields in between, the span from its first to its
last occurrence. -/
def repetitions (fields : List Field) : List Span :=
  let identities := ((fields.filter Field.isElement).map Field.identity).eraseDups
  identities.filterMap fun identity =>
    let pos := positions fields identity
    let span : Span := ⟨pos.headD 0, pos.getLastD 0⟩
    if pos.length > 1 ∧ span.last - span.first + 1 > pos.length then some span else none

/-- Joins to a span those that follow and overlap it. They come ordered by their first
positions. -/
def joinSpans (s : Span) : List Span → List Span
  | [] => [s]
  | t :: rest =>
    if t.first ≤ s.last then joinSpans ⟨s.first, max s.last t.last⟩ rest
    else s :: joinSpans t rest

/-- Disjoint spans that cover the given ones, the last first. -/
def disjointSpans (spans : List Span) : List Span :=
  match spans.mergeSort fun a b => a.first ≤ b.first with
  | [] => []
  | s :: rest => (joinSpans s rest).reverse

/-- The elements of a span, each once. A further occurrence adds its bounds and types to the
first. -/
def mergeElements (elements : List Field) : List Field :=
  elements.foldl (fun members f =>
    match members.findIdx? (·.identity == f.identity) with
    | none => members ++ [f]
    | some i => members.modify i fun g =>
        let g := g.setMin (Occurs.add g.restrictions.min f.restrictions.min)
        let g := g.setMax (Occurs.add g.restrictions.max f.restrictions.max)
        { g with types := addTypes g.types f.types }) []

/-- Turns the elements of a span into a repeating choice; what else is in the span follows them. -/
def mergeSpan (fields : List Field) (s : Span) : List Field :=
  let marker := freshNegativeChoice fields
  let span := (fields.drop s.first).take (s.last + 1 - s.first)
  let elements := span.filter Field.isElement
  let total := elements.foldl (fun n f => Occurs.add n f.restrictions.max) 0
  let members := (mergeElements elements).map fun f =>
    ({ f with restrictions.choice := marker, restrictions.sequence := 0 } : Field).setMax total
  fields.take s.first ++ members ++ span.filter (!·.isElement) ++ fields.drop (s.last + 1)

/-- Turns elements that repeat with others in between into repeating choices. -/
def SchemaType.groupRepetitions (t : SchemaType) : SchemaType :=
  if t.isEnumeration then t
  else { t with fields := (disjointSpans (repetitions t.fields)).foldl mergeSpan t.fields }

/-- Widens a field so that it covers a further declaration. -/
def Field.widen (f further : Field) : Field :=
  let f := f.setMin (min f.restrictions.min further.restrictions.min)
  let f := f.setMax (Occurs.add f.restrictions.max further.restrictions.max)
  { f with
    fixed := false
    restrictions.sequence :=
      if f.restrictions.sequence = 0 then further.restrictions.sequence
      else f.restrictions.sequence
    types := addTypes f.types further.types }

/-- Takes a field onto those before it: into the one with the same identity and choice marker, or
to the end. Of attributes, members and texts the first declaration stays as it is. -/
def mergeField (fields : List Field) (f : Field) : List Field :=
  match fields.findIdx? fun g =>
      g.identity == f.identity && g.restrictions.choice == f.restrictions.choice with
  | none => fields ++ [f]
  | some i =>
    if f.isAttribute || f.isEnumeration || f.isText then fields else fields.modify i (·.widen f)

/-- Merges fields that are declared more than once. -/
def SchemaType.mergeFields (t : SchemaType) : SchemaType :=
  { t with fields := t.fields.foldl mergeField [] }

end Schemata
