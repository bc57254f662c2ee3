import Schemata.Config.Basic
import Schemata.Document.YamlSource
import Schemata.Yaml.Reader

/-!
# Reading the configuration

A configuration is a document in YAML. What it leaves out, or leaves empty, has its default, and
keys that it does not know are passed over.
-/

namespace Schemata

/-- Why a configuration is refused. -/
inductive ConfigError where
  | unreadable (cause : ReadError)
  | badNameParts (n : Int)
  | badWorkers (n : Int)
deriving DecidableEq, Repr

def ConfigError.message : ConfigError → String
  | unreadable cause => "failed to parse config YAML: " ++ cause.message
  | badNameParts n => "compoundFields.maxNameParts must be positive, got " ++ toString n
  | badWorkers n => "workers must not be negative, got " ++ toString n

namespace Config

open Reads

/-- One of several words. -/
def choice {α : Type} (what : String) (parse? : String → Option α) (old : α) : YamlReads α :=
  coded (fun word => match parse? word.text with
    | some a => .ok a
    | none => .error (.unknownChoice what word.line word.text)) .ok old

/-- Configurations may have members that are not known here. -/
def lenient : Keys :=
  { closed := false }

def outputSlots : List (Slot YamlReads OutputConfig) :=
  [ ⟨"package", fun o => return { o with package := ← text o.package }⟩,
    ⟨"structure", fun o =>
      return { o with layout := ← choice "output structure" Structure.parse? o.layout }⟩,
    ⟨"unnestClasses", fun o => return { o with unnestClasses := ← bool o.unnestClasses }⟩,
    ⟨"wrappedLists", fun o => do
      let mode ← choice "wrapped list mode" WrappedLists.parse? o.wrappedLists
      return { o with wrappedLists := mode }⟩,
    ⟨"ignorePatterns", fun o => return { o with ignorePatterns := ← bool o.ignorePatterns }⟩,
    ⟨"filter", fun o => return { o with keeps := ← choice "filter" Filter.parse? o.keeps }⟩ ]

def compoundSlots : List (Slot YamlReads CompoundConfig) :=
  [ ⟨"enabled", fun c => return { c with enabled := ← bool c.enabled }⟩,
    ⟨"maxNameParts", fun c => return { c with maxNameParts := ← int c.maxNameParts }⟩,
    ⟨"defaultName", fun c => return { c with defaultName := ← text c.defaultName }⟩,
    ⟨"useSubstitutionGroups", fun c =>
      return { c with useSubstitutionGroups := ← bool c.useSubstitutionGroups }⟩,
    ⟨"forceDefaultName", fun c =>
      return { c with forceDefaultName := ← bool c.forceDefaultName }⟩ ]

def slots : List (Slot YamlReads Config) :=
  [ ⟨"output", fun c => return { c with output := ← Source.record lenient outputSlots c.output }⟩,
    ⟨"compoundFields", fun c =>
      return { c with compoundFields := ← Source.record lenient compoundSlots c.compoundFields }⟩,
    ⟨"workers", fun c => return { c with workers := ← int c.workers }⟩ ]

/-- Puts defaults where texts are empty. -/
def fillIn (c : Config) : Config :=
  let c := if c.output.package = "" then { c with output.package := "generated" } else c
  if c.compoundFields.defaultName = "" then { c with compoundFields.defaultName := "choice" } else c

/-- Checks the ranges of numbers. -/
def check (c : Config) : Except ConfigError Config :=
  if c.compoundFields.maxNameParts < 1 then .error (.badNameParts c.compoundFields.maxNameParts)
  else if c.workers < 0 then .error (.badWorkers c.workers)
  else .ok c

/-- Reads a configuration. -/
def parse (s : String) : Except ConfigError Config :=
  match Yaml.parse s with
  | none => .error (.unreadable .unreadable)
  | some none => check {}
  | some (some tree) =>
    match YamlReads.run (Source.record lenient slots {}) tree (2 * s.length + 2) with
    | .error e => .error (.unreadable e)
    | .ok c => check (fillIn c)

end Config

end Schemata
