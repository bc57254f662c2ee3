import Schemata.Json.Writer
import Schemata.Pipeline.Analysis
import Schemata.Text.Width

/-!
# Reports

The modules and the diagnostics of an analysis: as a table for people, or as a value for programs.
-/

namespace Schemata

namespace Table

/-- The cells of a module: its path, how many types it has, and what it imports. -/
def row (m : Module) : List String :=
  [m.path, toString m.types.length,
    String.intercalate ", " (m.imports.map fun i => i.source ++ "." ++ i.name)]

/-- The widths of the columns. -/
def widths (rows : List (List String)) : List Nat :=
  rows.foldl (fun ws row =>
    (row.zipIdx.map fun (cell, i) => max (ws[i]?.getD 0) (Text.width cell))) []

/-- A row whose cells have the widths of the columns, except the last. -/
def line (ws : List Nat) (row : List String) : String :=
  match row.reverse with
  | [] => "\n"
  | last :: before =>
    String.join ((before.reverse.zip ws).map fun (cell, w) => Text.padRight w cell ++ "  ") ++
      last ++ "\n"

/-- A heading and the diagnostics of a severity, if there are any. -/
def listing (severity : Severity) (ds : List Diagnostic) : String :=
  if ds.isEmpty then ""
  else "\n" ++ toString ds.length ++ " " ++ severity.text ++ "(s)\n" ++
    String.join (ds.map fun d => "  " ++ d.text ++ "\n")

/-- The modules as a table, then errors and warnings. -/
def render (a : Analysis) : String :=
  let rows := ["MODULE", "TYPES", "IMPORTS"] :: a.modules.map row
  String.join (rows.map (line (widths rows))) ++ listing .error a.diagnostics.errors ++
    listing .warning a.diagnostics.warnings

end Table

namespace Report

def imported (i : Import) : Json :=
  .object ([("qname", .text i.qname.text), ("source", .text i.source)] ++
    (i.aliasName.map fun given => ("alias", Json.text given)).toList)

def ofModule (m : Module) : Json :=
  .object ([("path", .text m.path), ("package", .text m.package), ("name", .text m.name)] ++
    (if m.imports.isEmpty then [] else [("imports", .list (m.imports.map imported))]) ++
    [("types", .texts m.typeNames)])

/-- A diagnostic; the type and the field are left out when there are none. -/
def ofDiagnostic (d : Diagnostic) : Json :=
  .object ([("severity", .text d.severity.text), ("code", .text d.code),
      ("message", .text d.message)] ++
    (if d.type = "" then [] else [("type", .text d.type)]) ++
    (if d.field = "" then [] else [("field", .text d.field)]))

/-- The modules and all diagnostics. -/
def ofAnalysis (a : Analysis) : Json :=
  .object ([("modules", if a.modules.isEmpty then .null else .list (a.modules.map ofModule))] ++
    (if a.diagnostics.all.isEmpty then []
      else [("diagnostics", .list (a.diagnostics.all.map ofDiagnostic))]))

def render (a : Analysis) : String :=
  (ofAnalysis a).pretty

end Report

end Schemata
