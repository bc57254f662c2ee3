import Schemata.Text.Case
import Schemata.Text.Split
import Schemata.Text.Utf8

/-!
# Resource identifiers

The parts of a resource identifier: scheme, host, path, and for a rootless path after a scheme the
opaque rest. Escapes are decoded where the part allows them; a text that breaks the rules of any
part, the fragment included, is no identifier.
-/

namespace Schemata

structure Uri where
  scheme : List Char := []
  /-- The host, with the number behind its colon. -/
  host : List Char := []
  path : List Char := []
  /-- All after the scheme, when it does not start with a slash. -/
  opaqueRest : List Char := []
deriving Repr

namespace Uri

/-- The parts in which escapes follow rules of their own. -/
inductive Part where
  | host
  | zone
  | other
deriving DecidableEq

def hexValue? (c : Char) : Option Nat :=
  if c.isDigit then some (c.toNat - '0'.toNat)
  else if 'a' ≤ c ∧ c ≤ 'f' then some (c.toNat - 'a'.toNat + 10)
  else if 'A' ≤ c ∧ c ≤ 'F' then some (c.toNat - 'A'.toNat + 10)
  else none

/-- What may stand unescaped in a host: letters, digits, marks and delimiters, and all beyond
ASCII. -/
def isHostChar (c : Char) : Bool :=
  c.toNat ≥ 0x80 || c.isAlphanum || "-_.~!$&'()*+,;=:[]<>\"".toList.contains c

/-- Whether a part may hold the byte `n` as an escape. -/
def allowsEscape (part : Part) (n : Nat) : Bool :=
  match part with
  | .other => true
  | .host => n ≥ 0x80 || n == '%'.toNat
  | .zone => n == '%'.toNat || n == ' '.toNat || (n < 0x80 && isHostChar (Char.ofNat n))

/-- The bytes of a part with its escapes decoded. -/
def unescapeBytes (part : Part) : List Char → Option (List Nat)
  | [] => some []
  | '%' :: a :: b :: rest =>
    match hexValue? a, hexValue? b with
    | some x, some y =>
      if allowsEscape part (x * 16 + y) then
        (unescapeBytes part rest).map ((x * 16 + y) :: ·)
      else none
    | _, _ => none
  | '%' :: _ => none
  | c :: rest =>
    if part == .other || isHostChar c then (unescapeBytes part rest).map (Text.bytesOf c ++ ·)
    else none

def unescape (part : Part) (cs : List Char) : Option (List Char) :=
  (unescapeBytes part cs).map Text.ofBytes

/-- A colon and digits, or nothing. -/
def isNumberTail : List Char → Bool
  | [] => true
  | c :: cs => c == ':' && cs.all Char.isDigit

/-- What stands before the first `%25` of a text, and the text from there on. -/
def cutZone? : List Char → Option (List Char × List Char)
  | [] => none
  | c :: cs =>
    if (Text.after? ['%', '2', '5'] (c :: cs)).isSome then some ([], c :: cs)
    else (cutZone? cs).map fun (before, zone) => (c :: before, zone)

/-- A number up to 255 without a needless zero in front. -/
def isOctet (ds : List Char) : Bool :=
  !ds.isEmpty && ds.all Char.isDigit && (ds.length == 1 || ds.head? != some '0') &&
    ds.foldl (fun n c => n * 10 + (c.toNat - '0'.toNat)) 0 ≤ 255

/-- Whether a text is an address of four octets. -/
def isOctetAddress (cs : List Char) : Bool :=
  let octets := Text.splitOn '.' cs
  octets.length == 4 && octets.all isOctet

/-- Whether groups fill an address up to the `room` that is left: with a gap, which stands for at
least one group, some must be left, and without one none. -/
def fills (gap : Bool) (room : Nat) : Bool :=
  if gap then room > 0 else room == 0

/-- Whether a text is the rest of an address for which there is room, in groups of up to four digits
of base sixteen. A double colon is a gap, of which there is at most one; the last two groups may be
written as four octets. -/
def isGroupAddress : Nat → Bool → List Char → Bool
  | 0, _, _ => false
  | room + 1, gap, cs =>
    let group := cs.takeWhile fun c => (hexValue? c).isSome
    !group.isEmpty && group.length ≤ 4 &&
      match cs.drop group.length with
      | [] => fills gap room
      | '.' :: _ => (gap || room == 1) && room ≥ 1 && isOctetAddress cs && fills gap (room - 1)
      | [':', ':'] => !gap && fills true room
      | ':' :: ':' :: rest => !gap && isGroupAddress room true rest
      | ':' :: rest => isGroupAddress room gap rest
      | _ => false

/-- Whether a text is an address of eight groups, with or without the name of a zone. -/
def isLiteral (cs : List Char) : Bool :=
  let address := cs.takeWhile (· != '%')
  let zoneFits := cs.drop address.length != ['%']
  zoneFits && match address with
    | [':', ':'] => true
    | ':' :: ':' :: rest => isGroupAddress 8 true rest
    | address => isGroupAddress 8 false address

/-- The text between the brackets of a host, with its escapes decoded; a zone has rules of its own. -/
def unescapeLiteral (cs : List Char) : Option (List Char) :=
  match cutZone? cs with
  | some (address, zone) => do
    let address ← unescape .host address
    let zone ← unescape .zone zone
    pure (address ++ zone)
  | none => unescape .host cs

/-- Reads a host. An opening bracket comes first or not at all, and what it opens is an address
in groups. -/
def parseHost (cs : List Char) : Option (List Char) :=
  if cs.contains '[' then
    match Text.cutLast? ']' cs with
    | some ('[' :: inside, number) => do
      let literal ← unescapeLiteral inside
      if !inside.contains '[' && isNumberTail number && isLiteral literal then
        some ('[' :: literal ++ ']' :: number)
      else none
    | _ => none
  else
    match Text.cutLast? ':' cs with
    | some (_, number) => if isNumberTail (':' :: number) then unescape .host cs else none
    | none => unescape .host cs

def isUserChar (c : Char) : Bool :=
  c.toNat < 0x80 && (c.isAlphanum || "-._:~!$&'()*+,;=%@".toList.contains c)

/-- The host of an authority, behind what names a user. -/
def parseAuthority (cs : List Char) : Option (List Char) :=
  match Text.cutLast? '@' cs with
  | none => parseHost cs
  | some (user, rest) => do
    let host ← parseHost rest
    if user.all isUserChar ∧ (unescapeBytes .other user).isSome then some host else none

/-- What a scheme is made of, letters aside. -/
def isSchemeMark (c : Char) : Bool :=
  c.isDigit || c == '+' || c == '-' || c == '.'

/-- Cuts the scheme off a text; fails when a colon comes first. -/
def cutScheme (cs : List Char) : Option (List Char × List Char) :=
  let scheme := cs.takeWhile fun c => c.isAlpha || isSchemeMark c
  match cs.drop scheme.length with
  | ':' :: rest =>
    match scheme with
    | [] => none
    | c :: _ => if isSchemeMark c then some ([], cs) else some (scheme.map Text.lowerChar, rest)
  | _ => some ([], cs)

/-- All before the query. -/
def withoutQuery (cs : List Char) : List Char :=
  cs.takeWhile (· != '?')

/-- Reads a text without fragment. -/
def parseBare (cs : List Char) : Option Uri :=
  if cs.any fun c => c.toNat < 0x20 || c.toNat == 0x7F then none
  else if cs = ['*'] then some { path := cs }
  else do
    let (scheme, rest) ← cutScheme cs
    let rest := withoutQuery rest
    if rest.head? != some '/' && !scheme.isEmpty then pure { scheme, opaqueRest := rest }
    else if rest.head? != some '/' && (rest.takeWhile (· != '/')).contains ':' then none
    else
      let slashes := (rest.takeWhile (· == '/')).length
      if slashes ≥ 2 && (!scheme.isEmpty || slashes < 3) then
        let authority := (rest.drop 2).takeWhile (· != '/')
        let host ← parseAuthority authority
        let path ← unescape .other (rest.drop (2 + authority.length))
        pure { scheme, host, path }
      else
        let path ← unescape .other rest
        pure { scheme, path }

/-- Reads a resource identifier. -/
def parse? (s : String) : Option Uri :=
  let cs := s.toList
  let bare := cs.takeWhile (· != '#')
  let fragment := cs.drop (bare.length + 1)
  do
    let uri ← parseBare bare
    let _ ← unescapeBytes .other fragment
    pure uri

/-- The host without number and brackets. -/
def hostName (u : Uri) : List Char :=
  let host :=
    match Text.cutLast? ':' u.host with
    | some (before, number) => if isNumberTail (':' :: number) then before else u.host
    | none => u.host
  if host.head? == some '[' && host.length ≥ 2 && host.getLast? == some ']' then
    (host.drop 1).dropLast
  else host

end Uri

end Schemata
