import LostUpdate.CommandLine.Flag
import LostUpdate.Text.Integer
import LostUpdate.Text.Quoted

namespace LostUpdate

/-- What is wrong with a command line. -/
inductive UsageError
  | missingValue (f : Flag)
  | notInteger (f : Flag) (value : String)
  | unwantedValue (f : Flag) (value : String)
  | ambiguous (argument : String) (spellings : List String)
  | unrecognized (arguments : List String)
  deriving DecidableEq, Repr

def UsageError.message : UsageError → String
  | missingValue f => "argument " ++ f.title ++ ": expected one argument"
  | notInteger f value =>
    "argument " ++ f.title ++ ": invalid int value: " ++ Text.quoted value
  | unwantedValue f value =>
    "argument " ++ f.title ++ ": ignored explicit argument " ++ Text.quoted value
  | ambiguous argument spellings =>
    "ambiguous option: " ++ argument ++ " could match " ++ ", ".intercalate spellings
  | unrecognized arguments => "unrecognized arguments: " ++ " ".intercalate arguments

/-- A flag as it stands in an argument. A value may be attached to it, behind an equals sign or, if
the flag is short, directly. -/
structure FlagUse where
  flag : Flag
  spelling : String
  attached : Option String
  deriving DecidableEq, Repr

inductive Argument
  | separator
  | plain (s : String)
  | flag (u : FlagUse)
  | unknown (s : String)
  deriving DecidableEq, Repr

namespace Argument

/-- A text up to its first equals sign, and what stands behind that. -/
def cutAtEquals (s : String) : String × Option String :=
  let cs := s.toList
  let stem := String.ofList (cs.takeWhile (· ≠ '='))
  match cs.dropWhile (· ≠ '=') with
  | [] => (stem, none)
  | _ :: value => (stem, some (String.ofList value))

/-- The flags that an argument may mean though it is no spelling: long ones that begin like it, or a
short one with a value behind it. -/
def candidates (s : String) : List FlagUse :=
  if s.startsWith "--" then
    let (stem, attached) := cutAtEquals s
    Flag.spelled.filterMap fun (spelling, f) =>
      if spelling.startsWith stem then some ⟨f, spelling, attached⟩ else none
  else
    let cs := s.toList
    Flag.spelled.filterMap fun (spelling, f) =>
      if spelling = String.ofList (cs.take 2) then
        some ⟨f, spelling, some (String.ofList (cs.drop 2))⟩
      else none

/-- The flag that an argument spells out, up to an equals sign if there is one. -/
def spelledFlag? (s : String) : Option FlagUse :=
  match Flag.ofSpelling? s with
  | some f => some ⟨f, s, none⟩
  | none =>
    let (stem, attached) := cutAtEquals s
    if attached.isSome then (Flag.ofSpelling? stem).map fun f => ⟨f, stem, attached⟩ else none

def classify (s : String) : Except UsageError Argument :=
  if !s.startsWith "-" ∨ s = "-" then .ok (.plain s)
  else match spelledFlag? s with
    | some u => .ok (.flag u)
    | none =>
      match candidates s with
      | [u] => .ok (.flag u)
      | [] => .ok (if Text.isNegativeNumber s || s.contains ' ' then .plain s else .unknown s)
      | us => .error (.ambiguous s (us.map (·.spelling)))

/-- The arguments of a command line, one for each word. -/
def ofWords : List String → Except UsageError (List Argument)
  | [] => .ok []
  | s :: rest =>
    if s = "--" then .ok (.separator :: rest.map .plain)
    else do
      let first ← classify s
      let others ← ofWords rest
      return first :: others

end Argument

end LostUpdate
