import Schemata.Text.Graphic

/-!
# Quoted texts

A text between double quotes, in which every character that cannot be shown as itself is written as
an escape: by name where there is one, else by its code in two, four or eight digits.
-/

namespace Schemata.Text

/-- A number in lower case hexadecimal, at least `width` digits wide. -/
def hex (width n : Nat) : String :=
  let digits := Nat.toDigits 16 n
  String.ofList (List.replicate (width - digits.length) '0' ++ digits)

def quoteChar (c : Char) : String :=
  match c with
  | '"' => "\\\""
  | '\\' => "\\\\"
  | '\n' => "\\n"
  | '\r' => "\\r"
  | '\t' => "\\t"
  | c =>
    let n := c.toNat
    if n == 0x07 then "\\a"
    else if n == 0x08 then "\\b"
    else if n == 0x0B then "\\v"
    else if n == 0x0C then "\\f"
    else if isGraphic c then c.toString
    else if n < 0x80 then "\\x" ++ hex 2 n
    else if n < 0x10000 then "\\u" ++ hex 4 n
    else "\\U" ++ hex 8 n

def quote (s : String) : String :=
  "\"" ++ String.join (s.toList.map quoteChar) ++ "\""

end Schemata.Text
