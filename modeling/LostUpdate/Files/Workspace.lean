import LostUpdate.Files.Decoding
import LostUpdate.Files.Directory
import LostUpdate.Json.Basic
import LostUpdate.Report.Result

namespace LostUpdate

/-- What the system tells of a path when its file is to be read. -/
inductive FileState
  | missing
  | noFile
  /-- A file whose size is not told. -/
  | unmeasured (reason : String)
  /-- A file whose content is not given. -/
  | unreadable (size : Nat) (reason : String)
  /-- A file whose content is declared to be in what is no character set of texts. -/
  | undecodable (e : ParseError)
  | readable (size : Nat) (content : Decoded)

/-- Why the system gives less of a file than is there. -/
inductive Refusal
  | size (reason : String)
  | content (reason : String)

/-- Where programs are analysed: what the system holds, a parser, and what the system decodes and
gives. -/
structure Workspace where
  directory : Directory
  parse : String → Parsed
  codecs : Codecs
  refusal : Path → Option Refusal

/-- The quotient rounded to the nearest integer, from the middle to the even one. -/
def roundedQuotient (n d : Nat) : Nat :=
  let q := n / d
  let twice := 2 * (n % d)
  if twice < d then q
  else if d < twice then q + 1
  else q + q % 2

def mebibyte : Nat := 1024 * 1024

def usualSuffixes : List String := [".py", ".pyw", ".pyi"]

/-- Sizes in warnings have one decimal place. -/
def megabytesText (bytes : Nat) : String :=
  Json.decimalText (Int.ofNat (roundedQuotient (10 * bytes) mebibyte)) 1

def suffixWarnings (p : Path) : List String :=
  if p.suffix.map (·.toLower) ∈ usualSuffixes then []
  else ["Unusual file extension '" ++ p.suffix ++ "' for Python file"]

def sizeWarnings (size : Nat) : List String :=
  if mebibyte * 10 < size then
    ["Large file (" ++ megabytesText size ++ "MB) may impact analysis performance"]
  else []

/-- The result of a file in the state `state`: that of its text, with warnings if it is an unusual
file. -/
def Result.ofFile (p : Path) (state : FileState) (parse : String → Parsed) (shared : List String) :
    Except ParseError Result :=
  let r := empty p.text
  match state with
  | .missing => .ok (r.addError ("File does not exist: " ++ p.text))
  | .noFile => .ok (r.addError ("Path is not a file: " ++ p.text))
  | .unmeasured reason =>
    .ok ((r.addWarnings (suffixWarnings p)).addError ("Cannot read file stats: " ++ reason))
  | .unreadable size reason =>
    let r := (r.addWarnings (suffixWarnings p)).addWarnings (sizeWarnings size)
    .ok (r.addError ("Error reading file " ++ p.text ++ ": " ++ reason))
  | .undecodable e => .error e
  | .readable size content =>
    let r := (r.addWarnings (suffixWarnings p)).addWarnings (sizeWarnings size)
    r.complete content.text (parse content.text) shared

namespace Workspace

/-- What the system tells of a path in the workspace. -/
def state (w : Workspace) (p : Path) : FileState :=
  match w.directory.find? p with
  | none => .missing
  | some .folder | some .device => .noFile
  | some (.file content) =>
    match w.refusal p with
    | some (.size reason) => .unmeasured reason
    | some (.content reason) => .unreadable content.size reason
    | none => match Decoded.ofBytes w.codecs content with
      | .ok decoded => .readable content.size decoded
      | .error e => .undecodable e

def analyze (w : Workspace) (shared : List String) (p : Path) : Except ParseError Result :=
  Result.ofFile p (w.state p) w.parse shared

end Workspace

end LostUpdate
