import LostUpdate.Json.Basic
import LostUpdate.Report.Result

namespace LostUpdate

def version : String := "1.0.0"

def Violation.toJson (v : Violation) : Json :=
  .object [("target", .text v.target), ("line", .integer v.line), ("column", .integer v.column),
    ("message", .text v.message)]

def Result.metricsJson (r : Result) : Json :=
  .object (r.metrics.map fun (name, n) => (name, .integer n))

/-- Times are shown in seconds, a time of zero as `0.0`. -/
def secondsJson (milliseconds : Int) : Json :=
  if milliseconds = 0 then .decimal 0 1 else .decimal milliseconds 3

def Result.toJson (r : Result) : Json :=
  .object [("file", .text r.file), ("metrics", r.metricsJson),
    ("violations", .array (r.violations.map (·.toJson))), ("errors", .array (r.errors.map .text)),
    ("warnings", .array (r.warnings.map .text)), ("analysis_time", secondsJson r.milliseconds)]

/-- The totals of a run. -/
structure Summary where
  totalFiles : Nat
  totalViolations : Nat
  filesWithErrors : Nat
  deriving DecidableEq, Repr

def Summary.ofResults (results : List Result) : Summary where
  totalFiles := results.length
  totalViolations := results.foldr (fun r n => r.violations.length + n) 0
  filesWithErrors := results.countP (!·.isOk)

/-- The report of a run that ended at `timestamp`. -/
def summaryReport (results : List Result) (timestamp : String) : Json :=
  let summary := Summary.ofResults results
  .object [
    ("analysis_summary", .object [
      ("total_files", .integer summary.totalFiles),
      ("total_violations", .integer summary.totalViolations),
      ("files_with_errors", .integer summary.filesWithErrors),
      ("analysis_timestamp", .text timestamp),
      ("awaitguard_version", .text version)]),
    ("files", .array (results.map (·.toJson)))]

end LostUpdate
