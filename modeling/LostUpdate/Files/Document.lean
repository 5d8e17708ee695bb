import LostUpdate.Files.Workspace
import LostUpdate.Syntax.Reader

namespace LostUpdate.Encoding

def readContent? (j : Json) : Option ByteArray := do
  let start ← match j.field? "text", j.field? "hex" with
    | some (.text s), _ => some s.toUTF8
    | _, some (.text s) => (hexBytes? s).map (·.toByteArray)
    | _, _ => none
  match j.field? "pad" with
  | some (.array [.text s, .integer n]) =>
    let piece := s.toUTF8
    return Nat.repeat (· ++ piece) n.toNat start
  | _ => return start

/-- The working directory of a document. Of what is around it a document says nothing. -/
def home : Location := ["work"]

def bareDirectory : Directory := ⟨[], [["dev"], home], [["dev", "null"]], home⟩

/-- The files of a document: names stand beside `text`, bytes in `hex`, or `dir`, a folder. Behind
`pad` stands a text that is added a number of times. -/
def readDirectory? (files : List (String × Json)) : Option Directory :=
  files.foldlM (fun d (name, j) => do
    let l := home ++ (Path.ofString name).parts
    if (j.field? "dir").isSome then return d.addFolder l
    else return d.addFile l (← readContent? j)) bareDirectory

/-- Documents are not in character sets but the usual ones. -/
def noCodecs : Codecs := fun _ => none

/-- The parses of the files of a directory, by their texts. -/
def readParses? (d : Directory) (trees : List (String × Json)) : Option (List (String × Parsed)) :=
  trees.filterMapM fun (name, j) =>
    match d.find? (Path.ofString name) with
    | some (.file content) =>
      match Decoded.ofBytes noCodecs content with
      | .ok decoded => do return some (decoded.text, ← readParsed? j)
      | .error _ => some none
    | _ => some none

/-- A text that the document does not know is taken for one that cannot be parsed. -/
def parserOf (parses : List (String × Parsed)) (text : String) : Parsed :=
  match parses.find? (·.1 = text) with
  | some (_, parsed) => parsed
  | none => .error ⟨.badSyntax, "invalid syntax", none⟩

def readWorkspace? (j : Json) : Option Workspace := do
  let d ← readDirectory? (← (← j.field? "files").object?)
  let parses ← readParses? d (← (← j.field? "trees").object?)
  return ⟨d, parserOf parses, noCodecs, fun _ => none⟩

end LostUpdate.Encoding
