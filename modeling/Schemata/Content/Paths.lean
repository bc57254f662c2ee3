import Schemata.Model.SchemaType

/-!
# Content model paths

The path of a field leads through the particles of the content model, from the outside in. Folding
it gives the field its markers, of each kind the innermost, and multiplies the bounds of the
particles into the field's own. An alternative of a choice may always be absent.
-/

namespace Schemata

/-- What has been gathered along a path. -/
structure PathFold where
  restrictions : Restrictions
  /-- The field's own bounds. -/
  ownMin : Int
  ownMax : Int
  /-- The bounds of the enclosing particles. -/
  outerMin : Int := 1
  outerMax : Int := 1
  inChoice : Bool := false

namespace PathFold

/-- Multiplies in the bounds of an enclosing particle. -/
def enclose (p : PathFold) (e : PathEntry) : PathFold :=
  { p with outerMin := Occurs.mul p.outerMin e.min, outerMax := Occurs.mul p.outerMax e.max }

def step (p : PathFold) (e : PathEntry) : PathFold :=
  match e.kind with
  | .sequence => { p with restrictions.sequence := e.id }.enclose e
  | .choice => { p with restrictions.choice := e.id, inChoice := true }.enclose e
  | .group => { p with restrictions.group := e.id }.enclose e
  | .element => { p with ownMin := e.min, ownMax := e.max }
  | .other _ => p.enclose e

def result (p : PathFold) : Restrictions :=
  let min := if p.inChoice then 0 else Occurs.mul p.ownMin p.outerMin
  (p.restrictions.setMin min).setMax (Occurs.mul p.ownMax p.outerMax)

end PathFold

/-- Folds the path of a field into its markers and bounds. -/
def Field.foldPath (f : Field) : Field :=
  let r := f.restrictions
  if r.path.isEmpty then f
  else { f with restrictions :=
    (r.path.foldl PathFold.step { restrictions := r, ownMin := r.min, ownMax := r.max }).result }

/-- Folds the path of every field. -/
def SchemaType.foldPaths (t : SchemaType) : SchemaType :=
  { t with fields := t.fields.map Field.foldPath }

/-- The lower bound of a choice particle on a path, with its enclosing particles multiplied in. -/
def choiceMin? (id : Int) (path : List PathEntry) : Option Int :=
  go 1 path
where
  go (bound : Int) : List PathEntry → Option Int
    | [] => none
    | e :: rest =>
      if e.kind = .element then go bound rest
      else
        let bound := Occurs.mul bound e.min
        if e.kind = .choice ∧ e.id = id then some bound else go bound rest

end Schemata
