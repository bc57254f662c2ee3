import Schemata.Text.Quoted
import Schemata.Text.Split

/-!
# Qualified names

A qualified name has a namespace, which may be empty, and a local name. Its text form is
`{namespace}local`, or the local name alone when the namespace is empty.
-/

namespace Schemata

structure QName where
  ns : String := ""
  name : String := ""
deriving DecidableEq, Repr, Inhabited, Hashable

namespace QName

/-- Why a text is no qualified name. -/
inductive ParseError where
  | empty
  | malformed (text : String)
deriving DecidableEq, Repr

def ParseError.message : ParseError → String
  | .empty => "invalid qname: empty string"
  | .malformed text => "invalid qname " ++ Text.quote text

/-- The text form `{namespace}local`, or the local name alone. -/
def text (q : QName) : String :=
  if q.ns = "" then q.name else "\x7b" ++ q.ns ++ "\x7d" ++ q.name

def isZero (q : QName) : Bool :=
  q.ns == "" && q.name == ""

def withName (q : QName) (name : String) : QName :=
  { q with name }

/-- Reads the text form. Without a leading brace all of the text is the local name; with one the
first closing brace ends the namespace, and something must follow it. -/
def parse (s : String) : Except ParseError QName :=
  match s.toList with
  | [] => .error .empty
  | '\x7b' :: rest =>
    match Text.cut? '\x7d' rest with
    | some (ns, c :: cs) => .ok ⟨String.ofList ns, String.ofList (c :: cs)⟩
    | _ => .error (.malformed s)
  | _ => .ok ⟨"", s⟩

end QName

end Schemata
