import Schemata.Text.Quoted

/-!
# Numbers and truth values in texts

Words of 64 bits, and readers for the lexical forms of facet values. Whole numbers with a sign that
fit in a word range from `-Word64.limit` up to below `Word64.limit`; they are written as digits after
an optional sign. A text is refused at the first character that does not fit, or at the digit that
takes the value out of range, whichever comes first.
-/

namespace Schemata.Word64

/-- How many words there are. -/
def count : Nat := 18446744073709551616

/-- The least number that is too large for a word with a sign. -/
def limit : Nat := 9223372036854775808

/-- The word with a sign that is left of a number. -/
def wrap (n : Int) : Int :=
  Int.bmod n count

theorem wrap_of_mem_range {n : Int} (below : -(limit : Int) ≤ n) (above : n < limit) : wrap n = n := by
  simp only [limit] at below above
  simp only [wrap, count, Int.bmod_def]
  omega

/-- The numbers that a word with a sign can be. -/
def Fits (n : Int) : Prop :=
  -(limit : Int) ≤ n ∧ n < limit

instance (n : Int) : Decidable (Fits n) :=
  inferInstanceAs (Decidable (_ ∧ _))

theorem fits_zero : Fits 0 :=
  ⟨by decide, by decide⟩

theorem fits_wrap (n : Int) : Fits (wrap n) := by
  simp only [Fits, limit, wrap, count, Int.bmod_def]
  omega

end Schemata.Word64

namespace Schemata.Text

/-- Why a text is no value. -/
inductive LexError where
  | syntaxError
  | outOfRange
deriving DecidableEq, Repr

def LexError.message : LexError → String
  | .syntaxError => "invalid syntax"
  | .outOfRange => "value out of range"

def digitValue (c : Char) : Nat :=
  c.toNat - '0'.toNat

/-- The value of a text of digits, read from the left onto `n`, as long as it fits in 64 bits. -/
def readDigits : Nat → List Char → Except LexError Nat
  | n, [] => .ok n
  | n, c :: cs =>
    if !c.isDigit then .error .syntaxError
    else
      let n' := n * 10 + digitValue c
      if n' < Word64.count then readDigits n' cs else .error .outOfRange

/-- A signed integer of 64 bits. -/
def readInt (s : String) : Except LexError Int :=
  let (negative, digits) :=
    match s.toList with
    | '-' :: cs => (true, cs)
    | '+' :: cs => (false, cs)
    | cs => (false, cs)
  if digits.isEmpty then .error .syntaxError
  else do
    let n ← readDigits 0 digits
    if negative then
      if n ≤ Word64.limit then .ok (-(n : Int)) else .error .outOfRange
    else if n < Word64.limit then .ok n
    else .error .outOfRange

/-- A truth value: a word, its first letter or a digit. -/
def readBool (s : String) : Except LexError Bool :=
  if s ∈ ["1", "t", "T", "TRUE", "true", "True"] then .ok true
  else if s ∈ ["0", "f", "F", "FALSE", "false", "False"] then .ok false
  else .error .syntaxError

end Schemata.Text
