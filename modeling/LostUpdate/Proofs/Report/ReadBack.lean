import LostUpdate.Files.Path
import LostUpdate.Proofs.Json.RoundTrip
import LostUpdate.Report.Summary
import Mathlib.Algebra.GroupWithZero.Nat
import Mathlib.Data.List.Forall2

namespace LostUpdate

namespace Json

def items (name : String) (j : Json) : List Json := ((j.field? name).bind array?).getD []

end Json

/-- The report lists the files at the paths, each once and in their order, with what was found in
them, and its totals are those of the list. -/
structure Json.Summarizes (j : Json) (paths : List Path) (results : List Result)
    (entries : List Json) : Prop where
  files : j.field? "files" = some (.array entries)
  paths : List.Forall₂ (fun p e => e.field? "file" = some (.text (Text.joined p.text))) paths entries
  found : List.Forall₂ (fun r e => (e.items "violations").length = r.violations.length ∧
    e.items "errors" = r.errors.map fun s => .text (Text.joined s)) results entries
  totals : ∃ totals, j.field? "analysis_summary" = some totals ∧
    totals.field? "total_files" = some (.integer entries.length) ∧
    totals.field? "total_violations" =
      some (.integer ((entries.map fun e => (e.items "violations").length).sum : Nat)) ∧
    totals.field? "files_with_errors" =
      some (.integer (entries.countP fun e => !(e.items "errors").isEmpty))

namespace Result

variable (r : Result)

end Result

end LostUpdate
