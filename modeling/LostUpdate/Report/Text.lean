import LostUpdate.Json.Basic
import LostUpdate.Report.Result

namespace LostUpdate.Result

def doubleRule : String := String.ofList (List.replicate 80 '=')

def rule : String := String.ofList (List.replicate 50 '-')

def metric (r : Result) (name : String) : Int :=
  ((r.metrics.find? (·.1 = name)).map (·.2)).getD 0

def numbered (items : List String) : List String :=
  items.zipIdx.map fun (s, i) => toString (i + 1) ++ ". " ++ s

def summaryLine (r : Result) : String :=
  if !r.errors.isEmpty then "Analysis incomplete: " ++ toString r.errors.length ++ " error(s)"
  else if r.violations.isEmpty then "No non-atomic updates detected"
  else toString r.violations.length ++ " possible race condition(s) detected"

def metricLines (r : Result) : List String :=
  if r.metrics.isEmpty then []
  else "\nAnalysis Metrics:" ::
    [("Code Paths", "code_paths"), ("Loop Back Edges", "back_edges"),
      ("Unreachable Segments", "unreachable_segments"),
      ("Resumable Functions", "resumable_functions"),
      ("Suspension Points", "suspension_points"),
      ("Checked Assignments", "checked_assignments")].map fun (title, name) =>
        "  - " ++ title ++ ": " ++ toString (r.metric name)

/-- Columns are shown counted from one. -/
def violationLines (r : Result) (file : String) : List String :=
  if r.violations.isEmpty then []
  else ["\nNON-ATOMIC UPDATES", rule] ++
    r.violations.zipIdx.flatMap fun (v, i) => [
      toString (i + 1) ++ ". " ++ v.message,
      "   Location: " ++ file ++ ":" ++ toString v.line ++ ":" ++ toString (v.column + 1),
      "   Fix: read the value after the last await/yield, or guard the update with an asyncio.Lock"]

def titled (title : String) (items : List String) : List String :=
  if items.isEmpty then [] else ["\n" ++ title, rule] ++ numbered items

def report (r : Result) (file : String) : String :=
  "\n".intercalate (
    [doubleRule, "AwaitGuard Analysis Report", doubleRule, "File: " ++ file,
      "Analysis Time: " ++ Json.decimalText r.milliseconds 3 ++ " seconds",
      "\nSUMMARY", rule, r.summaryLine] ++
    r.metricLines ++ r.violationLines file ++ titled "ERRORS" r.errors ++
    titled "WARNINGS" r.warnings ++ ["\n" ++ doubleRule])

end LostUpdate.Result
