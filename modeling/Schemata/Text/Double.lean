/-!
# Doubles

Numbers with a point and an exponent, and the doubles that are nearest to them. A number is a value
and an exponent, which counts powers of a base; all arithmetic is exact.
-/

namespace Schemata.Double

def isHexDigit (c : Char) : Bool :=
  c.isDigit || ('a' ≤ c && c ≤ 'f') || ('A' ≤ c && c ≤ 'F')

def digitValue (c : Char) : Nat :=
  if c.isDigit then c.toNat - '0'.toNat
  else if 'a' ≤ c then c.toNat - 'a'.toNat + 10
  else c.toNat - 'A'.toNat + 10

/-- The value of digits in a base. -/
def valueOf (base : Nat) (digits : List Char) : Nat :=
  digits.foldl (fun n c => n * base + digitValue c) 0

/-- What follows an optional sign. -/
def afterSign : List Char → List Char
  | '+' :: cs => cs
  | '-' :: cs => cs
  | cs => cs

/-- Digits after an optional sign. -/
def isInteger (cs : List Char) : Bool :=
  let digits := afterSign cs
  !digits.isEmpty && digits.all Char.isDigit

/-- Digits with at most one point among them: the digits, how many stand behind the point, and the
rest of the text. -/
def mantissa? (isDigit : Char → Bool) (cs : List Char) : Option (List Char × Nat × List Char) :=
  let whole := cs.takeWhile isDigit
  match cs.drop whole.length with
  | '.' :: rest =>
    let part := rest.takeWhile isDigit
    if whole.isEmpty && part.isEmpty then none
    else some (whole ++ part, part.length, rest.drop part.length)
  | rest => if whole.isEmpty then none else some (whole, 0, rest)

/-- Whether underscores stand between digits only. `last` is the character before: a zero for any
digit. -/
def underscoresFit (isDigit : Char → Bool) : Char → List Char → Bool
  | last, [] => last != '_'
  | last, c :: cs =>
    if isDigit c then underscoresFit isDigit '0' cs
    else if c == '_' then last == '0' && underscoresFit isDigit '_' cs
    else last != '_' && underscoresFit isDigit '!' cs

/-- A whole number with an optional sign. -/
def exponent? (cs : List Char) : Option Int :=
  if isInteger cs then
    let n : Int := valueOf 10 (afterSign cs)
    some (if cs.head? == some '-' then -n else n)
  else none

/-- Digits and exponent of a decimal number; the exponent counts powers of ten. -/
def decimalParts? (cs : List Char) : Option (Nat × Int) :=
  match mantissa? Char.isDigit cs with
  | some (digits, places, []) => some (valueOf 10 digits, -places)
  | some (digits, places, c :: rest) =>
    if c == 'e' || c == 'E' then (exponent? rest).map fun e => (valueOf 10 digits, e - places)
    else none
  | none => none

/-- Digits and exponent of a hexadecimal number behind its mark; the exponent counts powers of two
and has to be there. -/
def hexParts? (cs : List Char) : Option (Nat × Int) :=
  match mantissa? isHexDigit cs with
  | some (digits, places, c :: rest) =>
    if c == 'p' || c == 'P' then (exponent? rest).map fun e => (valueOf 16 digits, e - 4 * places)
    else none
  | _ => none

/-- The least value that is rounded beyond the greatest double. -/
def overflow : Nat := Nat.pow 2 1024 - Nat.pow 2 970

/-- Whether `value · base ^ e` stays below the overflow. Magnitudes are compared first, so that no
huge power is computed. -/
def inRange (base value : Nat) (e : Int) : Bool :=
  if value = 0 then true
  else if e > 1100 then false
  else if e ≥ 0 then value * Nat.pow base e.toNat < overflow
  else if value < overflow ∨ value.log2 < e.natAbs then true
  else value < overflow * Nat.pow base e.natAbs

/-- A quotient to the nearest whole number, of two the even one. -/
def roundDiv (n d : Nat) : Nat :=
  let q := n / d
  if 2 * (n % d) > d || (2 * (n % d) == d && q % 2 == 1) then q + 1 else q

/-- The greatest power of two that is not above `n / d`. -/
def binaryLog (n d : Nat) : Int :=
  let k : Int := n.log2 - d.log2
  let fits := if k ≥ 0 then d * Nat.pow 2 k.toNat ≤ n else d ≤ n * Nat.pow 2 k.natAbs
  if fits then k else k - 1

/-- The whole part of the double that is nearest to the positive `n / d`: it has 53 binary
digits. -/
def wholeOfQuotient (n d : Nat) : Nat :=
  let shift := binaryLog n d - 52
  if shift ≥ 0 then roundDiv n (d * Nat.pow 2 shift.toNat) * Nat.pow 2 shift.toNat
  else roundDiv (n * Nat.pow 2 shift.natAbs) d / Nat.pow 2 shift.natAbs

/-- The whole part of the double that is nearest to `value · 10 ^ e`. -/
def wholePart (value : Nat) (e : Int) : Nat :=
  if value = 0 then 0
  else if e ≥ 0 then wholeOfQuotient (value * Nat.pow 10 e.toNat) 1
  else if value.log2 + 1 < e.natAbs then 0
  else wholeOfQuotient value (Nat.pow 10 e.natAbs)

end Schemata.Double
