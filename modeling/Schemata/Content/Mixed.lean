import Schemata.Model.SchemaType

/-!
# Mixed content

A type with mixed content has an element wildcard that collects texts and unknown elements.
-/

namespace Schemata

/-- Matches elements of any namespace. -/
def wildcardNs : String := "##any"

/-- The field that collects mixed content. -/
def contentField (index : Nat) : Field :=
  { tag := .any
    name := "content"
    index
    ns := wildcardNs
    types := [.ofNative Native.anyType]
    restrictions := .occurs 0 Occurs.unbounded
    mixed := true }

/-- Opens the first element wildcard of the list for mixed content, if there is one. -/
def openWildcard? : List Field → Option (List Field)
  | [] => none
  | f :: fs =>
    if f.tag = .any then
      some ((({ f with mixed := true } : Field).setMin 0).setMax Occurs.unbounded :: fs)
    else (openWildcard? fs).map (f :: ·)

/-- Gives a type with mixed content a wildcard that collects it. -/
def SchemaType.collectMixed (t : SchemaType) : SchemaType :=
  if t.mixed then
    { t with fields :=
      (openWildcard? t.fields).getD (t.fields ++ [contentField t.fields.length]) }
  else t

end Schemata
