namespace LostUpdate

/-- A path as it is written. Empty parts and `.` say nothing and are dropped, `..` is kept: where it
leads depends on the folders. -/
structure Path where
  /-- The slashes at the front of a path that does not start at the working directory. -/
  root : String
  parts : List String
  deriving DecidableEq, Repr

namespace Path

/-- Exactly two slashes in front differ from one; three or more count as one. -/
def rootOf (s : String) : String :=
  if s.startsWith "//" ∧ !s.startsWith "///" then "//"
  else if s.startsWith "/" then "/"
  else ""

/-- The texts between the slashes of a text. -/
def cut (s : String) : List String := (s.toList.splitOn '/').map String.ofList

def ofString (s : String) : Path :=
  ⟨rootOf s, (cut s).filter fun part => part ≠ "" ∧ part ≠ "."⟩

/-- The path of the working directory is written as a dot. -/
def text (p : Path) : String :=
  if p.root = "" ∧ p.parts.isEmpty then "." else p.root ++ "/".intercalate p.parts

def name (p : Path) : String := p.parts.getLast?.getD ""

/-- The name from its last dot on. A dot at either end of the name starts no suffix. -/
def suffix (p : Path) : String :=
  let reversed := p.name.toList.reverse
  let ending := reversed.takeWhile (· ≠ '.')
  let stem := (reversed.dropWhile (· ≠ '.')).drop 1
  if ending.isEmpty ∨ stem.isEmpty then "" else String.ofList ('.' :: ending.reverse)

def below (p : Path) (rest : List String) : Path := { p with parts := p.parts ++ rest }

end Path

end LostUpdate
