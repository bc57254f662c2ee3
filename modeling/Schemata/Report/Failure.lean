import Schemata.Report.Diagnostic

/-!
# Failures

A run is aborted by a failure: what went wrong, and the trail of places that it came through. Most
causes are compile errors, which name the rule that the types violate.
-/

namespace Schemata

/-- A rule that types can violate. -/
inductive Rule where
  | duplicateType
  | missingReference
  | crossReference
  | unresolvedReference
  | circularModules
  | innerNotFound
  | dependencyCycle
  /-- Any other rule, by its text. -/
  | other (text : String)
deriving DecidableEq, Repr, Inhabited

namespace Rule

/-- The rules that have a code of their own. -/
def coded : List Rule :=
  [duplicateType, missingReference, crossReference, unresolvedReference, circularModules,
    innerNotFound, dependencyCycle]

def text : Rule → String
  | duplicateType => "duplicate type"
  | missingReference => "missing reference"
  | crossReference => "cross reference"
  | unresolvedReference => "unresolved reference"
  | circularModules => "circular module dependency"
  | innerNotFound => "inner type not found"
  | dependencyCycle => "dependency cycle"
  | other s => s

def ofText (s : String) : Rule :=
  (coded.find? (·.text == s)).getD (other s)

def code : Rule → String
  | duplicateType => "duplicate_name"
  | missingReference => "missing_reference"
  | crossReference => "cross_reference"
  | unresolvedReference => "unresolved_reference"
  | circularModules => "circular_modules"
  | innerNotFound => "inner_not_found"
  | dependencyCycle => "dependency_cycle"
  | other _ => "compile_failed"

end Rule

/-- A violated rule, the qualified names that violate it and what more there is to say. -/
structure CompileError where
  rule : Rule
  qnames : List String := []
  detail : String := ""
deriving DecidableEq, Repr

def CompileError.message (e : CompileError) : String :=
  "compile error: " ++ e.rule.text ++
    (if e.qnames.isEmpty then "" else ": `" ++ String.intercalate "`, `" e.qnames ++ "`") ++
    (if e.detail = "" then "" else ": " ++ e.detail)

inductive Cause where
  | compile (e : CompileError)
  /-- The run was called off. -/
  | cancelled
  /-- No root has the handle that was to be replaced. -/
  | noRoot (handle : Int)
  /-- No type has the handle that was to be worked on. -/
  | noType (handle : Int)
  /-- A step came to no end within its bound. -/
  | unfinished
  /-- Any other complaint. -/
  | plain (message : String)
deriving DecidableEq, Repr

def Cause.message : Cause → String
  | compile e => e.message
  | cancelled => "context canceled"
  | noRoot h => "replace: no type with handle " ++ toString h
  | noType h => "no type with handle " ++ toString h
  | unfinished => "step does not come to an end"
  | plain message => message

structure Failure where
  cause : Cause
  /-- The places that the failure came through, the outermost first. -/
  trail : List String := []
deriving DecidableEq, Repr

namespace Failure

def ofCompile (rule : Rule) (detail : String) (qnames : List String) : Failure :=
  { cause := .compile { rule, qnames, detail } }

def within (place : String) (f : Failure) : Failure :=
  { f with trail := place :: f.trail }

def message (f : Failure) : String :=
  String.join (f.trail.map (· ++ ": ")) ++ f.cause.message

/-- The compile error behind the failure, if that is the cause. -/
def compile? (f : Failure) : Option CompileError :=
  match f.cause with
  | .compile e => some e
  | _ => none

/-- The failure as a diagnostic: coded by its rule and attributed to its first qualified name. -/
def diagnostic (f : Failure) : Diagnostic :=
  { severity := .error
    code := match f.compile? with
      | some e => e.rule.code
      | none => "compile_failed"
    message := f.message
    type := match f.compile? with
      | some e => e.qnames.headD ""
      | none => "" }

end Failure

end Schemata
