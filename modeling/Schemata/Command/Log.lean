import Schemata.Json.Writer
import Schemata.Pipeline.Analysis

/-!
# Logs

What happens in a run as records with a level, a message and attributes. A quiet log has only
warnings and errors.
-/

namespace Schemata

inductive Level where
  | debug
  | info
  | warn
  | error
deriving DecidableEq, Repr, Inhabited

def Level.text : Level → String
  | debug => "DEBUG"
  | info => "INFO"
  | warn => "WARN"
  | error => "ERROR"

structure LogRecord where
  level : Level
  message : String
  attributes : List (String × Json) := []
deriving Repr, Inhabited

namespace LogRecord

/-- The record of something that went wrong. -/
def failure (message error : String) : LogRecord :=
  { level := .error, message, attributes := [("error", .text error)] }

/-- The record of an event; notes are details. -/
def ofEvent : Event → LogRecord
  | .noted d =>
    { level := if d.severity = .warning then .warn else .debug
      message := d.message
      attributes := [("code", .text d.code), ("type", .text d.type), ("field", .text d.field)] }
  | .swept step sweep types =>
    { level := .debug
      message := "step.sweep"
      attributes := [("step", .text step), ("sweep", .int sweep), ("types", .int types)] }
  | .staged stage types =>
    { level := .debug
      message := "pipeline.stage"
      attributes := [("stage", .text stage), ("types", .int types)] }

/-- The records of an analysis. -/
def ofAnalysis (a : Analysis) : List LogRecord :=
  a.journal.map ofEvent ++ match a.failure with
    | some f => [failure "compile" f.message]
    | none =>
      [{ level := .info
         message := "analyze.done"
         attributes := [("types", .int a.types.length), ("modules", .int a.modules.length),
           ("warnings", .int a.diagnostics.warnings.length)] }]

/-- Whether a record is shown. -/
def isShown (verbose : Bool) (r : LogRecord) : Bool :=
  verbose || r.level == .warn || r.level == .error

/-- The record as a value. -/
def toJson (r : LogRecord) : Json :=
  .object ([("level", .text r.level.text), ("msg", .text r.message)] ++ r.attributes)

/-- The record on a line. -/
def line (r : LogRecord) : String :=
  r.toJson.compact { markup := false }

end LogRecord

end Schemata
