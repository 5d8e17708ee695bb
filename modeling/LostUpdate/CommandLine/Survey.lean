import LostUpdate.CommandLine.Options
import LostUpdate.Files.Workspace
import LostUpdate.Report.Log

namespace LostUpdate

/-- What became of a path. -/
inductive Visit
  | missing
  | refused (e : ParseError)
  | analyzed (r : Result)

/-- How a run ends: with an exit code, or with an error that nobody takes care of. -/
inductive Exit
  | code (n : Nat)
  | refusedText (e : ParseError)
  | badPath (e : PathError)
  | badOption (e : OptionError)
  deriving DecidableEq, Repr

structure Survey where
  /-- Lines of standard output. -/
  out : List String
  /-- Lines of standard error. -/
  err : List String
  results : List (Path × Result)
  /-- Whether some path is missing or some result has errors. -/
  hadErrors : Bool
  /-- How the run has ended, if it goes no further. -/
  exit : Option Exit

namespace Survey

/-- The survey of a run that ends before the first path. -/
def broken (exit : Exit) : Survey := ⟨[], [], [], false, some exit⟩

def progress (o : Options) (p : Path) : List String :=
  if o.quiet then [] else ["Analyzing " ++ p.text ++ "..."]

/-- Puts what happened at one path in front of what happened at the others. -/
def prepend (out err : List String) (s : Survey) : Survey :=
  { s with out := out ++ s.out, err := err ++ s.err }

/-- Visits the paths in order. `notes` are the lines of the log for each. -/
def ofPaths (o : Options) (visit : Path → Visit) (notes : Path → List String) :
    List Path → Survey
  | [] => ⟨[], [], [], false, none⟩
  | p :: rest =>
    match visit p with
    | .missing =>
      let line := "Error: File not found: " ++ p.text
      if o.ciMode then ⟨[], [line], [], true, some (.code 3)⟩
      else { (ofPaths o visit notes rest).prepend [] [line] with hadErrors := true }
    | .refused e => ⟨progress o p, notes p, [], false, some (.refusedText e)⟩
    | .analyzed r =>
      let s := ofPaths o visit notes rest
      { s.prepend (progress o p) (notes p ++ r.errors) with
        results := (p, r) :: s.results
        hadErrors := !r.isOk || s.hadErrors }

end Survey

namespace Workspace

def visit (w : Workspace) (shared : List String) (p : Path) : Visit :=
  match w.directory.find? p with
  | none => .missing
  | some _ =>
    match w.analyze shared p with
    | .ok r => .analyzed r
    | .error e => .refused e

/-- The log of analysing the file at a path. -/
def notes (w : Workspace) (shared : List String) (p : Path) : List Note :=
  match w.state p with
  | .readable _ decoded =>
    (if decoded.isFallback then [.decodedAsLatin1 p.text] else []) ++
      match w.parse decoded.text with
      | .ok t =>
        Note.ofProgram t decoded.text shared ++
          match Result.analyze t (some decoded.text) shared with
          | .ok _ => []
          | .error _ => [.failed p.text]
      | .error _ => []
  | _ => []

def noteLines (w : Workspace) (o : Options) (shared : List String) (p : Path) : List String :=
  if o.debug then (w.notes shared p).map (·.text) else []

def survey (w : Workspace) (o : Options) : Survey :=
  match o.shared with
  | .error e => Survey.broken (.badOption e)
  | .ok shared =>
    match w.directory.collect (o.files.map .ofString) with
    | .error e => Survey.broken (.badPath e)
    | .ok paths => Survey.ofPaths o (w.visit shared) (w.noteLines o shared) paths

end Workspace

end LostUpdate
