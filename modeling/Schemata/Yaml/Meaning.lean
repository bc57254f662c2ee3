import Schemata.Text.Base64
import Schemata.Text.Double
import Schemata.Text.Split
import Schemata.Text.Number
import Schemata.Yaml.Node

/-!
# Meanings of scalars

A plain text may stand for nothing, a truth value, a number or a date; any other text stands for
itself. The writer asks the same question, so that a text that would be read as something else is
quoted. A tag may ask for a meaning, which the text then has to have.
-/

namespace Schemata.Yaml

inductive Meaning where
  | null
  | bool (b : Bool)
  | int (n : Int)
  /-- A number with a fraction or an exponent, cut off at the point. -/
  | float (whole : Int)
  /-- A number above all others, or none at all. -/
  | unlimited
  | date
  | text (s : String)
deriving DecidableEq, Repr

def digitIn? (base : Nat) (c : Char) : Option Nat :=
  let n := c.toNat
  let v := if c.isDigit then n - '0'.toNat
    else if 'a' ≤ c ∧ c ≤ 'z' then n - 'a'.toNat + 10
    else if 'A' ≤ c ∧ c ≤ 'Z' then n - 'A'.toNat + 10
    else 99
  if v < base then some v else none

/-- The value of digits in a base, at least one. -/
def natIn? (base : Nat) (digits : List Char) : Option Nat :=
  if digits.isEmpty then none
  else digits.foldlM (fun n c => (digitIn? base c).map (n * base + ·)) 0

/-- A natural number, in the base that its start tells. -/
def nat? (cs : List Char) : Option Nat :=
  match cs with
  | '0' :: 'x' :: rest | '0' :: 'X' :: rest => natIn? 16 rest
  | '0' :: 'o' :: rest | '0' :: 'O' :: rest => natIn? 8 rest
  | '0' :: 'b' :: rest | '0' :: 'B' :: rest => natIn? 2 rest
  | ['0'] => some 0
  | '0' :: rest => natIn? 8 rest
  | cs => natIn? 10 cs

/-- A whole number that fits in 64 bits, with or without a sign, its digits read by `digits?`. -/
def fit? (digits? : List Char → Option Nat) (cs : List Char) : Option Int :=
  match cs with
  | '-' :: rest => (digits? rest).bind fun n => if n ≤ Word64.limit then some (-(n : Int)) else none
  | '+' :: rest => (digits? rest).bind fun n => if n < Word64.limit then some n else none
  | cs => (digits? cs).bind fun n => if n < Word64.count then some n else none

/-- A whole number that fits in 64 bits. In base two or eight the sign may stand behind the mark of
the base. -/
def int? (cs : List Char) : Option Int :=
  (fit? nat? cs).or <|
    match cs with
    | '0' :: 'b' :: rest => fit? (natIn? 2) rest
    | '0' :: 'o' :: rest => fit? (natIn? 8) rest
    | _ => none

/-- A number with a point or an exponent in the range of doubles, cut off at the point of the nearest
double. -/
def float? (cs : List Char) : Option Int := do
  let (value, e) ← Double.decimalParts? (Double.afterSign cs)
  if !Double.inRange 10 value e then none
  else
    let n : Int := Double.wholePart value e
    pure (if cs.head? == some '-' then -n else n)

/-- One or two digits as a number. -/
def shortNat? (cs : List Char) : Option Nat :=
  if cs.length ≤ 2 then natIn? 10 cs else none

def daysIn (year month : Nat) : Nat :=
  let leap := year % 4 = 0 ∧ (year % 100 ≠ 0 ∨ year % 400 = 0)
  if month = 2 then (if leap then 29 else 28)
  else if month ∈ [4, 6, 9, 11] then 30 else 31

/-- Whether a text is the day of a date. -/
def isDay (cs : List Char) : Bool :=
  match Text.splitOn '-' cs with
  | [y, m, d] =>
    match natIn? 10 y, shortNat? m, shortNat? d with
    | some year, some month, some day =>
      y.length == 4 && 1 ≤ month && month ≤ 12 && 1 ≤ day && day ≤ daysIn year month
    | _, _, _ => false
  | _ => false

/-- Whether a text is the offset of a time zone. -/
def isZone (cs : List Char) : Bool :=
  match cs with
  | ['Z'] => true
  | [s, a, b, ':', c, d] =>
    (s == '+' || s == '-') && (natIn? 10 [a, b]).any (· ≤ 24) && (natIn? 10 [c, d]).any (· ≤ 60)
  | _ => false

/-- Whether a text is the time of day, perhaps with a fraction of a second. -/
def isTime (cs : List Char) : Bool :=
  match Text.splitOn ':' cs with
  | [h, m, s] =>
    let (whole, frac) := s.span Char.isDigit
    let fracOk := match frac with
      | [] => true
      | mark :: ds => (mark == '.' || mark == ',') && !ds.isEmpty && ds.all Char.isDigit
    match shortNat? h, shortNat? m, shortNat? whole with
    | some hour, some minute, some second =>
      fracOk && hour ≤ 23 && minute ≤ 59 && second ≤ 59
    | _, _, _ => false
  | _ => false

/-- Whether a text is a date, with or without a time. -/
def isDate (cs : List Char) : Bool :=
  let (day, rest) := cs.span fun c => c.isDigit || c == '-'
  isDay day && match rest with
    | [] => true
    | ' ' :: time => isTime (time.dropWhile (· == ' '))
    | t :: time =>
      let (clock, zone) := time.span fun c => c.isDigit || c == ':' || c == '.' || c == ','
      (t == 'T' || t == 't') && isTime clock && isZone zone

/-- What a text that starts like a number stands for, given whether it may be a date. -/
def numeric (dates : Bool) (s : String) : Meaning :=
  let cs := s.toList
  if cs.head? == some '.' then
    let fits := Double.underscoresFit Char.isDigit '^' cs
    match if fits then float? (cs.filter (· != '_')) else none with
    | some whole => .float whole
    | none => .text s
  else if dates && isDate cs then .date
  else
    let plain := cs.filter (· != '_')
    match int? plain with
    | some n => .int n
    | none =>
      match float? plain with
      | some whole => .float whole
      | none => .text s

/-- What a plain text stands for, given whether it may be a date. Below all numbers there is one that
no double reaches. -/
def meaningOf (dates : Bool) (s : String) : Meaning :=
  if s ∈ ["", "~", "null", "Null", "NULL"] then .null
  else if s ∈ ["true", "True", "TRUE"] then .bool true
  else if s ∈ ["false", "False", "FALSE"] then .bool false
  else if s ∈ ["-.inf", "-.Inf", "-.INF"] then .float (-(Nat.pow 2 1024 : Nat))
  else if s ∈ [".nan", ".NaN", ".NAN", ".inf", ".Inf", ".INF", "+.inf", "+.Inf", "+.INF"] then
    .unlimited
  else if s.toList.head?.any fun c => c.isDigit || c == '+' || c == '-' || c == '.' then
    numeric dates s
  else .text s

/-- What a plain text without a tag stands for. -/
def meaning (s : String) : Meaning :=
  meaningOf true s

/-- The tag of a meaning. -/
def Meaning.tag : Meaning → String
  | null => "!!null"
  | bool _ => "!!bool"
  | int _ => "!!int"
  | float _ | unlimited => "!!float"
  | date => "!!timestamp"
  | text _ => "!!str"

/-- What a text stands for under a tag that asks for a meaning; nothing if it has another one. -/
def meaningUnder? (tag : String) (s : String) : Option Meaning :=
  let m := meaningOf (tag == "!!timestamp") s
  if m.tag == tag then some m
  else if tag == "!!float" then
    match m with
    | .int n => if n < Word64.limit then some (.float n) else none
    | _ => none
  else none

/-- The truth value for which earlier versions of the language take a text. -/
def oldBool? (s : String) : Option Bool :=
  if s ∈ ["y", "Y", "yes", "Yes", "YES", "on", "On", "ON"] then some true
  else if s ∈ ["n", "N", "no", "No", "NO", "off", "Off", "OFF"] then some false
  else none

/-- Whether a text is up to two digits, the first of two at most five. -/
def isSixty (cs : List Char) : Bool :=
  match cs with
  | [a] => a.isDigit
  | [a, b] => '0' ≤ a && a ≤ '5' && b.isDigit
  | _ => false

/-- Whether earlier versions of the language take a text for a number in base sixty. -/
def isBaseSixty (s : String) : Bool :=
  match Text.splitOn ':' (Double.afterSign s.toList) with
  | first :: more :: rest =>
    let parts := more :: rest
    let (last, frac) := (parts.getLastD []).span (· != '.')
    let digits := fun (cs : List Char) => cs.all fun c => c.isDigit || c == '_'
    first.head?.any Char.isDigit && digits first && parts.dropLast.all isSixty && isSixty last &&
      (frac.isEmpty || digits (frac.drop 1))
  | _ => false

/-- Whether a text may be written plainly as far as its meaning goes. -/
def standsForItself (s : String) : Bool :=
  meaning s == .text s && (oldBool? s).isNone && !isBaseSixty s

namespace Node

/-- What a scalar stands for: nothing if its text does not fit its tag. A tag that asks for no
meaning leaves the text as it is, or has it decoded. -/
def scalarMeaning? (tag : String) (quoted : Bool) (s : String) : Option Meaning :=
  if tag == "!!str" || (tag == "" && quoted) then some (.text s)
  else if tag == "" then some (meaning s)
  else if tag == "!!binary" then (Text.base64? s).map .text
  else if tag ∈ ["!!null", "!!bool", "!!int", "!!float", "!!timestamp"] then meaningUnder? tag s
  else some (.text s)

/-- Whether a node says that it stands for nothing. -/
def isNull : Node → Bool
  | scalar _ tag quoted s => tag == "!!null" || (tag == "" && !quoted && meaning s == .null)
  | _ => false

/-- Whether a node is the key that takes in the pairs of other mappings. -/
def isMerge : Node → Bool
  | scalar _ tag quoted text => text == "<<" && (!quoted && tag = "" || tag == "!!merge")
  | _ => false

/-- Whether two keys are written alike. -/
def sameKey : Node → Node → Bool
  | scalar _ _ _ a, scalar _ _ _ b => a == b
  | sequence _ _, sequence _ _ => true
  | mapping _ _, mapping _ _ => true
  | reference _ _ _ a, reference _ _ _ b => a == b
  | _, _ => false

/-- Whether a key is repeated. -/
def repeats : List (Node × Node) → Bool
  | [] => false
  | (key, _) :: rest => rest.any (fun p => sameKey key p.1) || repeats rest

end Node

end Schemata.Yaml
