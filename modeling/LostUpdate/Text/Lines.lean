namespace LostUpdate.Text

/-- The lines read so far, last first, the open line, and whether it ends in `\r`. -/
private structure LineState where
  done : List String
  line : String
  pendingReturn : Bool

private def LineState.add (s : LineState) (c : Char) : LineState :=
  if c = '\n' then ⟨s.line.push c :: s.done, "", false⟩
  else
    let s := if s.pendingReturn then ⟨s.line :: s.done, "", false⟩ else s
    ⟨s.done, s.line.push c, c = '\r'⟩

/-- Lines with their ends: `\n`, `\r\n` or `\r`, and nothing else. -/
def lines (text : String) : List String :=
  let s := text.foldl LineState.add ⟨[], "", false⟩
  (if s.line.isEmpty then s.done else s.line :: s.done).reverse

/-- The text with all line ends written as `\n`. -/
def universalNewlines (text : String) : String :=
  (text.foldl (fun (out, afterReturn) c =>
    if c = '\n' then (if afterReturn then out else out.push '\n', false)
    else if c = '\r' then (out.push '\n', true)
    else (out.push c, false)) ("", false)).1

end LostUpdate.Text
