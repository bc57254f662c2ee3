import Schemata.Text.Quoted

/-!
# Progress of a type

How far a type has come. Every step of the pipeline has a status for the types that it works on and
one for those that it has finished.
-/

namespace Schemata

inductive Status where
  | raw
  | ungrouping
  | ungrouped
  | flattening
  | flattened
  | sanitizing
  | sanitized
  | resolving
  | resolved
  | cleaning
  | cleaned
  | compounding
  | compounded
  | finalizing
  | finalized
deriving DecidableEq, Repr, Inhabited

namespace Status

/-- All statuses in the order of progress. -/
def all : List Status :=
  [raw, ungrouping, ungrouped, flattening, flattened, sanitizing, sanitized, resolving, resolved,
    cleaning, cleaned, compounding, compounded, finalizing, finalized]

def toNat (s : Status) : Nat :=
  s.ctorIdx

instance : LT Status where
  lt a b := a.toNat < b.toNat

instance : LE Status where
  le a b := a.toNat ≤ b.toNat

instance (a b : Status) : Decidable (a < b) :=
  inferInstanceAs (Decidable (a.toNat < b.toNat))

instance (a b : Status) : Decidable (a ≤ b) :=
  inferInstanceAs (Decidable (a.toNat ≤ b.toNat))

def text : Status → String
  | raw => "Raw"
  | ungrouping => "Ungrouping"
  | ungrouped => "Ungrouped"
  | flattening => "Flattening"
  | flattened => "Flattened"
  | sanitizing => "Sanitizing"
  | sanitized => "Sanitized"
  | resolving => "Resolving"
  | resolved => "Resolved"
  | cleaning => "Cleaning"
  | cleaned => "Cleaned"
  | compounding => "Compounding"
  | compounded => "Compounded"
  | finalizing => "Finalizing"
  | finalized => "Finalized"

/-- Reads the name of a status; no text at all stands for the first one. -/
def parse? (s : String) : Option Status :=
  if s = "" then some raw else all.find? (·.text == s)

/-- The name of the status with a number, or the number itself when there is none. -/
def textOfNumber (n : Int) : String :=
  match if n < 0 then none else all[n.toNat]? with
  | some s => s.text
  | none => "Status(" ++ toString n ++ ")"

end Status

/-- The complaint about a text that names no status. -/
def unknownStatusMessage (s : String) : String :=
  "unknown status " ++ Text.quote s

end Schemata
