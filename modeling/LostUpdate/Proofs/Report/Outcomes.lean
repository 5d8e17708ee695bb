import LostUpdate.CommandLine.Survey
import Mathlib.Data.List.Basic
import Mathlib.Data.List.TakeWhile

namespace LostUpdate

namespace Result

variable {r q : Result} {source : String} {parsed : Parsed} {parse : String → Parsed}
  {shared : List String} {p : Path} {state : FileState} {e : ParseError}

/-- Only a text with a NUL character has no result. -/
theorem complete_eq_error : r.complete source parsed shared = .error e ↔
    parsed = .error e ∧ e.kind = .nulCharacter := by
  cases parsed with
  | error f =>
    simp only [complete]
    split_ifs with nul
    · simp only [Except.error.injEq, iff_self_and]
      exact fun same => same ▸ nul
    · simp only [Except.error.injEq, false_iff, not_and]
      exact fun same => same ▸ nul
  | ok t =>
    simp only [complete]
    cases analyze t (some source) shared <;> simp

/-- Only a file with a NUL character in its text has no result, and one that is declared to be in
what is no character set of texts. -/
theorem ofFile_eq_error : ofFile p state parse shared = .error e ↔ state = .undecodable e ∨
    ∃ size content, state = .readable size content ∧ parse content.text = .error e ∧
      e.kind = .nulCharacter := by
  cases state <;> simp [ofFile, complete_eq_error]

end Result

def Visit.result? : Visit → Option Result
  | .analyzed r => some r
  | .missing | .refused _ => none

/-- Whether nothing is visited any more after this. -/
def Visit.stops (ciMode : Bool) : Visit → Bool
  | .missing => ciMode
  | .refused _ => true
  | .analyzed _ => false

def Visit.exit : Visit → Exit
  | .refused e => .refusedText e
  | .missing | .analyzed _ => .code 3

namespace Visit

@[simp] theorem result?_missing : missing.result? = none := rfl

@[simp] theorem result?_analyzed (r : Result) : (analyzed r).result? = some r := rfl

@[simp] theorem stops_refused (ciMode : Bool) (e : ParseError) :
    (refused e).stops ciMode = true := rfl

@[simp] theorem stops_analyzed (ciMode : Bool) (r : Result) :
    (analyzed r).stops ciMode = false := rfl

end Visit

namespace Survey

variable (o : Options) (visit : Path → Visit) (notes : Path → List String)

end Survey

end LostUpdate
