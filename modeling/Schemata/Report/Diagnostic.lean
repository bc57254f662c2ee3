/-!
# Diagnostics

What a run has to say about its types: errors, warnings and notes, each with a code.
-/

namespace Schemata

inductive Severity where
  | info
  | warning
  | error
deriving DecidableEq, Repr, Inhabited

namespace Severity

def text : Severity → String
  | info => "info"
  | warning => "warning"
  | error => "error"

/-- The name of the severity with a number. -/
def textOfNumber (n : Int) : String :=
  match n with
  | 0 => info.text
  | 1 => warning.text
  | 2 => error.text
  | _ => "unknown"

end Severity

structure Diagnostic where
  severity : Severity
  code : String
  message : String
  /-- The type concerned, if any. -/
  type : String := ""
  /-- The field concerned, if any. -/
  field : String := ""
deriving DecidableEq, Repr, Inhabited

/-- The diagnostic on one line. -/
def Diagnostic.text (d : Diagnostic) : String :=
  let subject := (if d.type = "" then [] else ["[" ++ d.type ++ "]"]) ++
    (if d.field = "" then [] else [d.field])
  let body := if d.code = "" then d.message else "[" ++ d.code ++ "] " ++ d.message
  if subject.isEmpty then body else String.intercalate " " subject ++ ": " ++ body

structure Diagnostics where
  errors : List Diagnostic := []
  warnings : List Diagnostic := []
  infos : List Diagnostic := []
deriving DecidableEq, Repr, Inhabited

namespace Diagnostics

/-- Adds a diagnostic to those of its severity. -/
def add (ds : Diagnostics) (d : Diagnostic) : Diagnostics :=
  match d.severity with
  | .error => { ds with errors := ds.errors ++ [d] }
  | .warning => { ds with warnings := ds.warnings ++ [d] }
  | .info => { ds with infos := ds.infos ++ [d] }

def hasErrors (ds : Diagnostics) : Bool :=
  !ds.errors.isEmpty

def merge (ds other : Diagnostics) : Diagnostics :=
  { errors := ds.errors ++ other.errors
    warnings := ds.warnings ++ other.warnings
    infos := ds.infos ++ other.infos }

/-- Errors, then warnings, then notes. -/
def all (ds : Diagnostics) : List Diagnostic :=
  ds.errors ++ ds.warnings ++ ds.infos

/-- All errors as one text, if there are any. -/
def combined? (ds : Diagnostics) : Option String :=
  if ds.hasErrors then some (String.intercalate "; " (ds.errors.map Diagnostic.text)) else none

end Diagnostics

-- ---------------------------------------------------------------------------
-- Codes of warnings and notes
-- ---------------------------------------------------------------------------

namespace Code

def duplicateType : String := "duplicate_type"

def missingExtension : String := "missing_extension"

def missingSubstitution : String := "missing_substitution"

def resetAbsentType : String := "reset_absent_type"

def defaultEnumMismatch : String := "default_enum_mismatch"

def defaultTypeMismatch : String := "default_type_mismatch"

def namespaceOverride : String := "namespace_override"

def noGeneratableTypes : String := "no_generatable_types"

def prohibitedOverride : String := "prohibited_override"

def renamedType : String := "renamed_type"

def renamedField : String := "renamed_field"

def droppedInvalidType : String := "dropped_invalid_type"

def mergedGlobalType : String := "merged_global_type"

def unwrappedList : String := "unwrapped_list"

def removedCircularBase : String := "removed_circular_base"

def substitutionCycle : String := "substitution_cycle"

end Code

end Schemata
