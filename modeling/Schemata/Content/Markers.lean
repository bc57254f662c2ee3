import Schemata.Model.SchemaType

/-!
# Markers of sequences and choices

Fields of one sequence or one choice share a marker, a number that is not zero.
-/

namespace Schemata

/-- A choice marker that no field of the list has: beyond the greatest for alternatives. -/
def freshChoice (fields : List Field) : Int :=
  Word64.wrap ((fields.foldl (fun id f => max id f.restrictions.choice) 0) + 1)

/-- A choice marker that no field of the list has: below the least for repeated elements. -/
def freshNegativeChoice (fields : List Field) : Int :=
  Word64.wrap ((fields.foldl (fun id f => min id f.restrictions.choice) 0) - 1)

/-- Whether the members of a sequence repeat together: there are several, and all are lists. -/
def repeats (members : List Field) : Bool :=
  members.length ≥ 2 && members.all Field.isList

/-- Clears the marker of every sequence that does not repeat. -/
def SchemaType.clearSequences (t : SchemaType) : SchemaType :=
  let clear := fun (f : Field) =>
    let marker := f.restrictions.sequence
    if marker ≠ 0 ∧ repeats (t.fields.filter (·.restrictions.sequence == marker)) then f
    else { f with restrictions.sequence := 0 }
  { t with fields := t.fields.map clear }

/-- The number of a marker by first appearance, and the markers seen. -/
def numberMarker (seen : List Int) (marker : Int) : Int × List Int :=
  if marker = 0 then (0, seen)
  else match seen.idxOf? marker with
    | some i => (i + 1, seen)
    | none => (seen.length + 1, seen ++ [marker])

/-- Numbers fields by position and sequence markers by first appearance. -/
def numberFields : List Field → Nat → List Int → List Field
  | [], _, _ => []
  | f :: fs, i, seen =>
    let (marker, seen) := numberMarker seen f.restrictions.sequence
    { f with
      index := i
      restrictions.sequence := marker
      choices := f.choices.mapIdx fun j c => { c with index := j } } :: numberFields fs (i + 1) seen

/-- Numbers the fields of a type, their choices and their sequences from the top. -/
def SchemaType.renumberFields (t : SchemaType) : SchemaType :=
  { t with fields := numberFields t.fields 0 [] }

end Schemata
