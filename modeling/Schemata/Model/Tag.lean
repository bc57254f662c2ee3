import Schemata.Text.Quoted

/-!
# Schema constructs

The construct of the schema language that a type or a field comes from.
-/

namespace Schemata

inductive Tag where
  | unknown
  | element
  | complexType
  | simpleType
  | attr
  | attributeGroup
  | group
  | enumeration
  | extension
  | restriction
  | union
  | list
  | any
  | anyAttribute
  | choice
  | sequence
  | bindingMessage
  | bindingOperation
  | bindingFault
  | schema
  | override
  | redefine
deriving DecidableEq, Repr, Inhabited, Hashable

namespace Tag

/-- The constructs with a name of their own. -/
def named : List Tag :=
  [element, complexType, simpleType, attr, attributeGroup, group, enumeration, extension,
    restriction, union, list, any, anyAttribute, choice, sequence, bindingMessage,
    bindingOperation, bindingFault, schema, override, redefine]

def text : Tag → String
  | unknown => "unknown"
  | element => "element"
  | complexType => "complexType"
  | simpleType => "simpleType"
  | attr => "attribute"
  | attributeGroup => "attributeGroup"
  | group => "group"
  | enumeration => "enumeration"
  | extension => "extension"
  | restriction => "restriction"
  | union => "union"
  | list => "list"
  | any => "any"
  | anyAttribute => "anyAttribute"
  | choice => "choice"
  | sequence => "sequence"
  | bindingMessage => "bindingMessage"
  | bindingOperation => "bindingOperation"
  | bindingFault => "bindingFault"
  | schema => "schema"
  | override => "override"
  | redefine => "redefine"

/-- Reads the name of a construct; no text at all stands for the unknown one. -/
def parse? (s : String) : Option Tag :=
  if s = "" ∨ s = "unknown" then some unknown else named.find? (·.text == s)

/-- What tells two names apart that come from different constructs. -/
def suffixWord : Tag → String
  | complexType | simpleType => "Type"
  | attr | anyAttribute => "Attribute"
  | element | any => "Element"
  | bindingMessage => "Message"
  | bindingOperation => "Operation"
  | bindingFault => "Fault"
  | _ => "Value"

end Tag

/-- The complaint about a text that names no construct. -/
def unknownTagMessage (s : String) : String :=
  "unknown tag " ++ Text.quote s

end Schemata
