import LostUpdate.Race.Session
import LostUpdate.Syntax.Parsed

namespace LostUpdate

structure Result where
  violations : List Violation
  errors : List String
  warnings : List String
  /-- Named counters, in the order in which they are shown. -/
  metrics : List (String × Int)
  milliseconds : Int
  file : String

/-- The counters of an analysis that found `violations` violations. -/
def Stats.metrics (s : Stats) (violations : Nat) : List (String × Int) := [
  ("code_paths", s.codePaths), ("resumable_functions", s.resumableFunctions),
  ("segments", s.segments), ("back_edges", s.backEdges),
  ("unreachable_segments", s.unreachableSegments), ("suspension_points", s.suspensionPoints),
  ("checked_assignments", s.checkedAssignments), ("violations", violations)]

/-- Why the analysis of a program broke off. -/
inductive AnalysisError
  | scope (e : ScopeError)
  | tracker (f : Fault)

def ScopeError.message : ScopeError → String
  | bindingLeavesProgram => "'NoneType' object has no attribute 'type'"

def AnalysisError.message : AnalysisError → String
  | scope e => e.message
  | tracker f => f.message

namespace Result

def empty (file : String) : Result := ⟨[], [], [], [], 0, file⟩

def isOk (r : Result) : Bool := r.errors.isEmpty

def addError (r : Result) (message : String) : Result :=
  { r with errors := r.errors ++ [message] }

def addWarnings (r : Result) (messages : List String) : Result :=
  { r with warnings := r.warnings ++ messages }

/-- Violations are shown by line, then by column, and otherwise as they were found. -/
def sorted (violations : List Violation) : List Violation :=
  violations.mergeSort fun a b =>
    decide (a.line < b.line) || decide (a.line = b.line) && decide (a.column ≤ b.column)

def analyze (t : Tree) (source : Option String) (shared : List String) :
    Except AnalysisError Tracker :=
  match Scoping.ofTree t with
  | .error e => .error (.scope e)
  | .ok scoping =>
    match Subject.analyze ⟨scoping, source, shared⟩ t.root with
    | .error f => .error (.tracker f)
    | .ok tracker => .ok tracker

/-- Completes the result of a text that has been read. A text that is no program text at all has no
result. -/
def complete (r : Result) (source : String) (parsed : Parsed) (shared : List String) :
    Except ParseError Result :=
  match parsed with
  | .error e =>
    if e.kind = .nulCharacter then .error e
    else
      let line := match e.line with
        | some n => toString n
        | none => "None"
      .ok (r.addError ("Cannot parse " ++ r.file ++ ": " ++ e.message ++ " (line " ++ line ++ ")"))
  | .ok t =>
    match analyze t (some source) shared with
    | .error e => .ok (r.addError ("ERROR during analysis of " ++ r.file ++ ": " ++ e.message))
    | .ok tracker =>
      .ok { r with
        violations := sorted tracker.violations
        metrics := tracker.stats.metrics tracker.violations.length }

def ofSource (source : String) (parsed : Parsed) (shared : List String) (file : String) :
    Except ParseError Result :=
  (empty file).complete source parsed shared

end Result

end LostUpdate
