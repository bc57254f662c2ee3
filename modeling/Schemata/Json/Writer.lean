import Schemata.Json.Value
import Schemata.Text.Quoted

/-!
# Writing JSON

Compact, or with two blanks of indentation for each level. The characters that mark up documents,
and the two line separators of Unicode, are written by their codes.
-/

namespace Schemata.Json

/-- How a text is written. -/
structure Escaping where
  /-- Whether angle brackets, ampersands and line separators are written by their codes. -/
  markup : Bool := true

def escapeChar (e : Escaping) (c : Char) : String :=
  match c with
  | '"' => "\\\""
  | '\\' => "\\\\"
  | '\n' => "\\n"
  | '\r' => "\\r"
  | '\t' => "\\t"
  | c =>
    let n := c.toNat
    if n < 0x20 then "\\u" ++ Text.hex 4 n
    else if e.markup && (c == '<' || c == '>' || c == '&' || n == 0x2028 || n == 0x2029) then
      "\\u" ++ Text.hex 4 n
    else c.toString

def quote (e : Escaping) (s : String) : String :=
  "\"" ++ String.join (s.toList.map (escapeChar e)) ++ "\""

mutual

/-- On one line, without blanks. -/
def compact (e : Escaping) : Json → String
  | null => "null"
  | bool b => if b then "true" else "false"
  | int n => toString n
  | decimal literal => literal
  | text s => quote e s
  | list items => "[" ++ String.intercalate "," (compactAll e items) ++ "]"
  | object members => "\x7b" ++ String.intercalate "," (compactMembers e members) ++ "\x7d"

def compactAll (e : Escaping) : List Json → List String
  | [] => []
  | v :: vs => compact e v :: compactAll e vs

def compactMembers (e : Escaping) : List (String × Json) → List String
  | [] => []
  | (key, v) :: rest => (quote e key ++ ":" ++ compact e v) :: compactMembers e rest

end

/-- A line break and the indentation of a level. -/
def newline (level : Nat) : String :=
  "\n" ++ String.ofList (List.replicate (2 * level) ' ')

/-- Entries on lines of their own between brackets; nothing between the brackets without entries. -/
def block (level : Nat) (start stop : String) (entries : List String) : String :=
  if entries.isEmpty then start ++ stop
  else start ++ String.intercalate "," (entries.map (newline (level + 1) ++ ·)) ++ newline level ++
    stop

mutual

/-- On several lines, from an indentation level on. -/
def indented (e : Escaping) (level : Nat) : Json → String
  | null => "null"
  | bool b => if b then "true" else "false"
  | int n => toString n
  | decimal literal => literal
  | text s => quote e s
  | list items => block level "[" "]" (indentedAll e (level + 1) items)
  | object members => block level "\x7b" "\x7d" (indentedMembers e (level + 1) members)

def indentedAll (e : Escaping) (level : Nat) : List Json → List String
  | [] => []
  | v :: vs => indented e level v :: indentedAll e level vs

def indentedMembers (e : Escaping) (level : Nat) : List (String × Json) → List String
  | [] => []
  | (key, v) :: rest =>
    (quote e key ++ ": " ++ indented e level v) :: indentedMembers e level rest

end

/-- A document: indented, with a line break at the end. -/
def pretty (v : Json) : String :=
  indented {} 0 v ++ "\n"

end Schemata.Json
