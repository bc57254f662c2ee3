/-!
# Values of JSON

Objects keep their members in order, repeated keys included. Whole numbers are values; any other
number is kept as it is written.
-/

namespace Schemata

inductive Json where
  | null
  | bool (b : Bool)
  | int (n : Int)
  /-- A number with a fraction or an exponent, as written. -/
  | decimal (literal : String)
  | text (s : String)
  | list (items : List Json)
  | object (members : List (String × Json))
deriving Repr, Inhabited

namespace Json

/-- The value of the last member with a key. -/
def get? (v : Json) (key : String) : Option Json :=
  match v with
  | object members => members.reverse.lookup key
  | _ => none

def texts (ss : List String) : Json :=
  list (ss.map text)

end Json

end Schemata
