import Schemata.Report.Diagnostic
import Schemata.Store.Basic

/-!
# Filtering

Of the roots only those stay that are generated: the generatable ones and all that they depend on,
by name. When nothing is generatable, all stay.
-/

namespace Schemata

/-- Adds to the kept entries all that those in the queue depend on. Every entry is queued once. -/
def Store.keepClosure (s : Store) : Nat → List Entry → List Nat → List Nat
  | _, [], kept => kept
  | 0, _, kept => kept
  | steps + 1, e :: queue, kept =>
    let fresh := (e.type.dependencies false).foldl (fun (fresh : List Entry) q =>
      (s.bucket q).foldl (fun fresh dep =>
        if kept.contains dep.key || fresh.any (·.key == dep.key) then fresh
        else fresh ++ [dep]) fresh) []
    s.keepClosure steps (queue ++ fresh) (kept ++ fresh.map (·.key))

/-- Drops the roots that are not generated. -/
def Store.filterGenerated (s : Store) : Store :=
  if s.config.output.keeps = .all then s
  else
    let start := s.roots.filter (·.type.shouldGenerate)
    if start.isEmpty then
      s.warn Code.noGeneratableTypes "" ""
        ("no generatable types, keeping all " ++ toString s.roots.length ++ " types")
    else
      let kept := s.keepClosure (s.entries.length + 1) start (start.map (·.key))
      s.remove ((s.roots.map (·.key)).filter (!kept.contains ·))

end Schemata
