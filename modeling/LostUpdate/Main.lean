import LostUpdate.CommandLine.Run
import LostUpdate.Files.Document
import LostUpdate.Json.Reader

open LostUpdate

/-- The files of `d` that are not in `before` with the same content, named from the working directory
if they are below it. -/
def writtenFiles (before d : Directory) : List (String × Json) :=
  d.files.filterMap fun (l, content) =>
    if before.files.any fun (m, old) => m = l && old == content then none
    else
      let name := if d.working.isPrefixOf l then "/".intercalate (l.drop d.working.length)
        else "/" ++ "/".intercalate l
      (String.fromUTF8? content).map fun s => (name, .text s)

/-- The exit code, and the line that explains a run that breaks off. -/
def exitCode : Exit → Nat × List String
  | .code n => (n, [])
  | .refusedText e => (1, [e.message])
  | .badPath e => (1, [e.message])
  | .badOption e => (1, [e.message])

def main (words : List String) : IO UInt32 := do
  let document ← (← IO.getStdin).getLine
  match Json.parse? document with
  | none =>
    IO.eprintln "standard input holds no document"
    return 2
  | some j =>
    match Encoding.readWorkspace? j with
    | none =>
      IO.eprintln "standard input describes no working directory"
      return 2
    | some w =>
      let timestamp := ((j.field? "timestamp").bind Json.text?).getD ""
      let run := Run.ofWords w words timestamp
      let (code, explanation) := exitCode run.exit
      IO.println (Json.object [("exit", .integer (Int.ofNat code)), ("stdout", .text run.out),
        ("stderr", .text (run.err ++ Run.linesText explanation)),
        ("written", .object (writtenFiles w.directory run.directory))]).compact
      return code.toUInt32
