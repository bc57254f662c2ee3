import Schemata.Text.Utf8

/-!
# Bytes in base 64

Four characters stand for three bytes. Padding fills up the last four, and line ends do not count.
-/

namespace Schemata.Text

/-- The six bits that a character stands for. -/
def sixBits? (c : Char) : Option Nat :=
  let n := c.toNat
  if 'A' ≤ c ∧ c ≤ 'Z' then some (n - 'A'.toNat)
  else if 'a' ≤ c ∧ c ≤ 'z' then some (n - 'a'.toNat + 26)
  else if c.isDigit then some (n - '0'.toNat + 52)
  else if c == '+' then some 62
  else if c == '/' then some 63
  else none

/-- The bytes that characters in base 64 stand for. -/
def base64Bytes? : List Char → Option (List Nat)
  | [] => some []
  | [a, b, '=', '='] => do
    let x ← sixBits? a
    let y ← sixBits? b
    pure [x * 4 + y / 16]
  | [a, b, c, '='] => do
    let x ← sixBits? a
    let y ← sixBits? b
    let z ← sixBits? c
    pure [x * 4 + y / 16, y % 16 * 16 + z / 4]
  | a :: b :: c :: d :: rest => do
    let x ← sixBits? a
    let y ← sixBits? b
    let z ← sixBits? c
    let w ← sixBits? d
    let bytes ← base64Bytes? rest
    pure ((x * 4 + y / 16) :: (y % 16 * 16 + z / 4) :: (z % 4 * 64 + w) :: bytes)
  | _ => none

/-- The text that a text in base 64 stands for. -/
def base64? (s : String) : Option String :=
  (base64Bytes? (s.toList.filter fun c => c != '\n' && c != '\r')).map fun bytes =>
    String.ofList (ofBytes bytes)

end Schemata.Text
