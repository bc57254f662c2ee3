/-!
# Bytes as characters

Reading UTF-8 never fails: a byte that starts no well-formed sequence stands for the replacement
character, and reading goes on at the next byte.
-/

namespace Schemata.Text

/-- Stands for what is no character. -/
def replacement : Char := Char.ofNat 0xFFFD

/-- The six low bits of a byte that continues a sequence. -/
def continuation? (b : Nat) : Option Nat :=
  if 0x80 ≤ b ∧ b < 0xC0 then some (b - 0x80) else none

/-- The character that starts a list of bytes, and how many bytes follow its first. -/
def leadingChar (b : Nat) (rest : List Nat) : Char × Nat :=
  let invalid := (replacement, 0)
  if b < 0x80 then (Char.ofNat b, 0)
  else if b < 0xC2 then invalid
  else if b < 0xE0 then
    match rest with
    | b1 :: _ =>
      match continuation? b1 with
      | some x => (Char.ofNat ((b - 0xC0) * 0x40 + x), 1)
      | none => invalid
    | _ => invalid
  else if b < 0xF0 then
    match rest with
    | b1 :: b2 :: _ =>
      match continuation? b1, continuation? b2 with
      | some x, some y =>
        let n := (b - 0xE0) * 0x1000 + x * 0x40 + y
        if n < 0x800 ∨ (0xD800 ≤ n ∧ n < 0xE000) then invalid else (Char.ofNat n, 2)
      | _, _ => invalid
    | _ => invalid
  else if b < 0xF5 then
    match rest with
    | b1 :: b2 :: b3 :: _ =>
      match continuation? b1, continuation? b2, continuation? b3 with
      | some x, some y, some z =>
        let n := (b - 0xF0) * 0x40000 + x * 0x1000 + y * 0x40 + z
        if n < 0x10000 ∨ 0x110000 ≤ n then invalid else (Char.ofNat n, 3)
      | _, _, _ => invalid
    | _ => invalid
  else invalid

/-- The characters of a list of bytes. -/
def ofBytes (bytes : List Nat) : List Char :=
  go bytes 0
where
  /-- `skip` bytes belong to the character before. -/
  go : List Nat → Nat → List Char
    | [], _ => []
    | _ :: rest, skip + 1 => go rest skip
    | b :: rest, 0 =>
      let (c, n) := leadingChar b rest
      c :: go rest n

/-- The bytes of a character. -/
def bytesOf (c : Char) : List Nat :=
  c.toString.toUTF8.toList.map UInt8.toNat

end Schemata.Text
