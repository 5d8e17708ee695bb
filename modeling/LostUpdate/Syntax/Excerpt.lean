import LostUpdate.Syntax.Node
import LostUpdate.Text.Cut
import LostUpdate.Text.Lines

namespace LostUpdate

/-- Why the text has no piece at a place. -/
inductive ExcerptError
  | noSuchLine
  | cut (e : Text.CutError)
  deriving DecidableEq, Repr

def ExcerptError.message : ExcerptError → String
  | noSuchLine => "list index out of range"
  | cut e => e.message

namespace Span

/-- From one place in a line to another. -/
private def lineExcerpt (lines : List String) (line first : Int) (last : Option Int) :
    Except ExcerptError String :=
  match Text.item? lines line with
  | none => .error .noSuchLine
  | some s =>
    match Text.cut s first (last.getD s.utf8ByteSize) with
    | .ok piece => .ok piece
    | .error e => .error (.cut e)

/-- The text of a place, line ends included; none if its end is not known. A place whose end stands
in a line before its start has the rest of the one line and the start of the other. -/
def excerpt? (s : Span) (source : String) : Except ExcerptError (Option String) := do
  match s.endLine, s.endColumn with
  | some endLine, some endColumn =>
    let lines := Text.lines source
    if endLine = s.line then
      return some (← lineExcerpt lines (s.line - 1) s.column (some endColumn))
    else
      let head ← lineExcerpt lines (s.line - 1) s.column none
      let tail ← lineExcerpt lines (endLine - 1) 0 (some endColumn)
      return some (head ++ String.join (Text.slice lines s.line (endLine - 1)) ++ tail)
  | _, _ => return none

end Span

end LostUpdate
