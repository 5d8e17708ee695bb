import LostUpdate.CommandLine.Survey
import LostUpdate.CommandLine.Usage
import LostUpdate.Report.Summary
import LostUpdate.Report.Text

namespace LostUpdate

structure Outcome where
  exit : Exit
  out : String
  err : String
  directory : Directory

namespace Run

def linesText (lines : List String) : String := String.join (lines.map (· ++ "\n"))

/-- A step of a run that may change the directory and print. -/
abbrev Step := Except PathError (Directory × List String)

/-- Writes a file and says so, unless the run is to be quiet. -/
def save (o : Options) (d : Directory) (name content what : String) : Step := do
  let d ← d.write name content.toUTF8
  return (d, if o.quiet then [] else [what ++ " saved to " ++ name])

/-- A file name that is given and not empty. -/
def target? (name : Option String) : Option String := name.filter (· ≠ "")

/-- Delivers the reports, to a file if one is named. -/
def deliverReports (o : Options) (s : Survey) (d : Directory) : Step :=
  let reports := s.results.map fun (p, r) => r.report p.text
  match target? o.output with
  | some name => save o d name ("\n\n".intercalate reports) "Report"
  | none => .ok (d, reports)

/-- Delivers the summary, if a file is named for it and there is a result. -/
def deliverSummary (o : Options) (s : Survey) (timestamp : String) (d : Directory) : Step :=
  match target? o.json with
  | some name =>
    if s.results.isEmpty then .ok (d, [])
    else save o d name (summaryReport (s.results.map (·.2)) timestamp).pretty "JSON report"
  | none => .ok (d, [])

/-- The outcome of a check. -/
inductive Verdict
  | errors
  | tooMany (violations : Nat) (limit : Int)
  | passed
  deriving DecidableEq, Repr

def totalViolations (s : Survey) : Nat := (Summary.ofResults (s.results.map (·.2))).totalViolations

def verdict (o : Options) (s : Survey) : Except OptionError Verdict :=
  if s.hadErrors then .ok .errors
  else match o.maxViolations with
    | none => .error .unknownLimit
    | some limit =>
      if limit < totalViolations s then .ok (.tooMany (totalViolations s) limit) else .ok .passed

def Verdict.code : Verdict → Nat
  | errors => 3
  | tooMany .. => 1
  | passed => 0

def Verdict.out : Verdict → List String
  | errors => []
  | tooMany n limit => ["CI FAILURE: " ++ toString n ++
      " non-atomic updates found (max allowed: " ++ toString limit ++ ")"]
  | passed => ["CI PASSED: No non-atomic updates above the limit"]

def Verdict.err : Verdict → List String
  | errors => ["CI FAILURE: analysis errors occurred"]
  | _ => []

/-- What remains to be done when all files have been visited. -/
def conclude (o : Options) (s : Survey) (timestamp : String) (d : Directory) : Outcome :=
  let outcome (exit : Exit) (out err : List String) (d : Directory) : Outcome :=
    ⟨exit, linesText (s.out ++ out), linesText (s.err ++ err), d⟩
  match deliverReports o s d with
  | .error e => outcome (.badPath e) [] [] d
  | .ok (d, reports) =>
    match deliverSummary o s timestamp d with
    | .error e => outcome (.badPath e) reports [] d
    | .ok (d, summary) =>
      if o.ciMode then
        match verdict o s with
        | .error e => outcome (.badOption e) (reports ++ summary) [] d
        | .ok v => outcome (.code v.code) (reports ++ summary ++ v.out) v.err d
      else outcome (.code 0) (reports ++ summary) [] d

/-- A run with options. The directory is changed only after all files have been visited. -/
def withOptions (w : Workspace) (o : Options) (timestamp : String) : Outcome :=
  let s := w.survey o
  match s.exit with
  | some exit => ⟨exit, linesText s.out, linesText s.err, w.directory⟩
  | none => conclude o s timestamp w.directory

/-- A run of the command line `words`. -/
def ofWords (w : Workspace) (words : List String) (timestamp : String) : Outcome :=
  match Options.ofWords words with
  | .error .help => ⟨.code 0, Usage.help, "", w.directory⟩
  | .error .version => ⟨.code 0, "AwaitGuard " ++ version ++ "\n", "", w.directory⟩
  | .error (.misuse e) =>
    ⟨.code 2, "", Usage.usage ++ Usage.program ++ ": error: " ++ e.message ++ "\n", w.directory⟩
  | .ok o =>
    if o.files.isEmpty then ⟨.code 1, Usage.help, "", w.directory⟩
    else withOptions w o timestamp

end Run

end LostUpdate
