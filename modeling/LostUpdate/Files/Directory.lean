import LostUpdate.Files.Path

namespace LostUpdate

/-- The names on the way from the root, which is itself at `[]`. -/
abbrev Location := List String

/-- What a system holds, each at its location, and the folder at which paths without a root start.
The root is not listed among the folders. Devices take all that is written to them and keep nothing.
There are no links. -/
structure Directory where
  files : List (Location × ByteArray)
  folders : List Location
  devices : List Location
  working : Location

/-- Why a path leads nowhere, or nowhere a file can be written. -/
inductive PathError
  | missing | isFolder | notFolder | nameTooLong | nulCharacter
  deriving DecidableEq, Repr

def PathError.message : PathError → String
  | missing => "No such file or directory"
  | isFolder => "Is a directory"
  | notFolder => "Not a directory"
  | nameTooLong => "File name too long"
  | nulCharacter => "embedded null byte"

namespace Directory

inductive Entry
  | folder
  | device
  | file (content : ByteArray)

def isFolder (d : Directory) (l : Location) : Bool := l = [] || l ∈ d.folders

def at? (d : Directory) (l : Location) : Option Entry :=
  if d.isFolder l then some .folder
  else if l ∈ d.devices then some .device
  else (d.files.find? (·.1 = l)).map fun (_, content) => .file content

/-- The most bytes that a name has, and a path. -/
def nameLimit : Nat := 255

def pathLimit : Nat := 4095

/-- The location of `name` in the folder at `l`, whether or not it is there. -/
def child (l : Location) (name : String) : Except PathError Location :=
  if nameLimit < name.utf8ByteSize then .error .nameTooLong else .ok (l ++ [name])

/-- Follows the parts of a path from the location `l`; the first one that leads nowhere decides. What
is around the root is the root. -/
def follow (d : Directory) (l : Location) : List String → Except PathError Location
  | [] => .ok l
  | part :: rest =>
    if !d.isFolder l then .error .notFolder
    else if part = "" ∨ part = "." then d.follow l rest
    else if part = ".." then d.follow l.dropLast rest
    else match child l part with
      | .error e => .error e
      | .ok m => if (d.at? m).isSome then d.follow m rest else .error .missing

/-- Whether a text can be a path at all. -/
def checkText (s : String) : Except PathError Unit :=
  if s.contains '\x00' then .error .nulCharacter
  else if pathLimit < s.utf8ByteSize then .error .nameTooLong
  else .ok ()

def start (d : Directory) (p : Path) : Location := if p.root = "" then d.working else []

def locate (d : Directory) (p : Path) : Except PathError Location := do
  checkText p.text
  d.follow (d.start p) p.parts

def find? (d : Directory) (p : Path) : Option Entry := (d.locate p).toOption.bind d.at?

/-- Adds a folder and the folders on the way to it. -/
def addFolder (d : Directory) (l : Location) : Directory :=
  let onTheWay := (List.range l.length).map fun n => l.take (n + 1)
  { d with folders := d.folders ++ onTheWay.filter fun l => !d.isFolder l }

/-- Puts a file at a location, in the place of the one that is there. -/
def putFile (d : Directory) (l : Location) (content : ByteArray) : Directory :=
  { d with files := d.files.filter (·.1 ≠ l) ++ [(l, content)] }

/-- Adds a file and the folders on the way to it. -/
def addFile (d : Directory) (l : Location) (content : ByteArray) : Directory :=
  (d.addFolder l.dropLast).putFile l content

/-- Locations are ordered by the first names in which they differ. -/
def precedes : Location → Location → Bool
  | [], _ => true
  | _ :: _, [] => false
  | a :: l, b :: m => if a = b then precedes l m else decide (a < b)

/-- The programs below the folder at `l`, each by the names on the way to it, in the order of these
lists of names. -/
def programsBelow (d : Directory) (l : Location) : List (List String) :=
  let ways := d.files.filterMap fun (m, _) =>
    if l.isPrefixOf m ∧ (m.getLast?.getD "").endsWith ".py" then some (m.drop l.length) else none
  ways.mergeSort precedes

/-- The folders below the one at `l`, each by the names on the way to it. -/
def foldersBelow (d : Directory) (l : Location) : List (List String) :=
  d.folders.filterMap fun m => if l.isPrefixOf m then some (m.drop l.length) else none

/-- The paths that a path stands for: a folder for the programs in it, anything else for itself. In a
folder all folders are searched, which fails at a path that is too long. -/
def expand (d : Directory) (p : Path) : Except PathError (List Path) :=
  match d.locate p with
  | .ok l =>
    if d.isFolder l then
      let seen := d.foldersBelow l ++ d.programsBelow l
      if seen.all fun way => decide ((p.below way).text.utf8ByteSize ≤ pathLimit) then
        .ok ((d.programsBelow l).map p.below)
      else .error .nameTooLong
    else .ok [p]
  | .error .nameTooLong => .error .nameTooLong
  | .error _ => .ok [p]

def collect (d : Directory) (paths : List Path) : Except PathError (List Path) :=
  (paths.mapM d.expand).map List.flatten

/-- Whether a part of a path stands for a folder on the way. -/
def isDots (part : String) : Bool := part = "." || part = ".."

/-- The location of a file to be written at the path `s`. Its folder must be there already. A path
that ends in a slash or in dots can only mean a folder. -/
def place (d : Directory) (s : String) : Except PathError Location := do
  checkText s
  let parts := (Path.cut s).filter (· ≠ "")
  if parts.all isDots then .error .isFolder
  else
    let folder ← d.follow (d.start (Path.ofString s)) parts.dropLast
    let name := parts.getLast?.getD "."
    if !d.isFolder folder then .error .notFolder
    else if isDots name ∨ s.endsWith "/" then .error .isFolder
    else
      let l ← child folder name
      if d.isFolder l then .error .isFolder else .ok l

/-- Writes a file at the path `s`; a file that is there is replaced. -/
def write (d : Directory) (s : String) (content : ByteArray) : Except PathError Directory :=
  (d.place s).map fun l => if l ∈ d.devices then d else d.putFile l content

end Directory

end LostUpdate
