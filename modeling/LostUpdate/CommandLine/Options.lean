import LostUpdate.CommandLine.Argument

namespace LostUpdate

structure Options where
  files : List String
  output : Option String
  json : Option String
  ciMode : Bool
  /-- The limit of a check; none if the flag for it was given the separator for a value. -/
  maxViolations : Option Int
  /-- The names given as shared; none where the separator was given for a name. -/
  sharedNames : List (Option String)
  debug : Bool
  quiet : Bool
  deriving DecidableEq, Repr

/-- What is wrong with options, though this shows only when they are used. -/
inductive OptionError
  | unnamedShared
  | unknownLimit
  deriving DecidableEq, Repr

def OptionError.message : OptionError → String
  | unnamedShared => "unhashable type: 'list'"
  | unknownLimit => "'>' not supported between instances of 'int' and 'list'"

/-- Why a command line asks for no analysis. -/
inductive Departure
  | help
  | version
  | misuse (e : UsageError)
  deriving DecidableEq, Repr

namespace Options

def standard : Options := ⟨[], none, none, false, some 0, [], false, false⟩

/-- The shared names, if each is a name. -/
def shared (o : Options) : Except OptionError (List String) :=
  match o.sharedNames.mapM id with
  | some names => .ok names
  | none => .error .unnamedShared

/-- The effect of a flag. A flag that takes no value is given none. -/
def set (o : Options) (f : Flag) (value : Option String) : Except Departure Options :=
  match f with
  | .help => .error .help
  | .version => .error .version
  | .output => .ok { o with output := value }
  | .json => .ok { o with json := value }
  | .ciMode => .ok { o with ciMode := true }
  | .maxViolations =>
    match value with
    | none => .ok { o with maxViolations := none }
    | some s =>
      match Text.integer? s with
      | some n => .ok { o with maxViolations := some n }
      | none => .error (.misuse (.notInteger f s))
  | .sharedName => .ok { o with sharedNames := o.sharedNames ++ [value] }
  | .debug => .ok { o with debug := true }
  | .quiet => .ok { o with quiet := true }

end Options

/-- A flag with its value, if it has one. -/
abbrev Setting := Flag × Option String

/-- The flags in one argument. Short flags without values may stand together behind one dash. -/
structure Cluster where
  settled : List Setting
  /-- The last flag, if its value has to be the next word. -/
  waiting : Option Flag
  deriving DecidableEq, Repr

namespace Cluster

/-- The separator says that no value follows. -/
def givenValue (s : String) : Option String := if s = "--" then none else some s

def single (f : Flag) : Cluster :=
  if f.takesValue then ⟨[], some f⟩ else ⟨[(f, none)], none⟩

/-- The cluster that begins with the short flag `f`, with something attached to it: its value, or
more short flags. -/
def ofShort (f : Flag) : List Char → Except UsageError Cluster
  | [] => if f.takesValue then .ok ⟨[(f, some "")], none⟩ else .error (.unwantedValue f "")
  | c :: rest =>
    let value := String.ofList (c :: rest)
    if f.takesValue then .ok ⟨[(f, givenValue value)], none⟩
    else match Flag.ofSpelling? (String.ofList ['-', c]) with
      | none => .error (.unwantedValue f value)
      | some g =>
        let others := if rest.isEmpty then .ok (single g) else ofShort g rest
        others.map fun k => { k with settled := (f, none) :: k.settled }

def ofUse (u : FlagUse) : Except UsageError Cluster :=
  match u.attached with
  | none => .ok (single u.flag)
  | some value =>
    if u.spelling.startsWith "--" then
      if u.flag.takesValue then .ok ⟨[(u.flag, givenValue value)], none⟩
      else .error (.unwantedValue u.flag value)
    else ofShort u.flag value.toList

end Cluster

/-- How far the group of files has come. -/
inductive FileGroup
  | ahead | open | over
  deriving DecidableEq, Repr

/-- A command line read so far. -/
structure Reading where
  options : Options
  group : FileGroup
  strangers : List String
  deriving DecidableEq, Repr

namespace Reading

def start : Reading := ⟨.standard, .ahead, []⟩

def addStrangers (r : Reading) (l : List String) : Reading :=
  { r with strangers := r.strangers ++ l }

def addWord (r : Reading) (s : String) : Reading :=
  if r.group = .over then r.addStrangers [s]
  else { r with group := .open, options := { r.options with files := r.options.files ++ [s] } }

/-- The separator belongs to the group of files, but is no file. -/
def addSeparator (r : Reading) : Reading :=
  if r.group = .over then r.addStrangers ["--"] else { r with group := .open }

def closeGroup (r : Reading) : Reading :=
  if r.group = .open then { r with group := .over } else r

def setAll (r : Reading) (settings : List Setting) : Except Departure Reading :=
  (settings.foldlM (fun o (f, value) => Options.set o f value) r.options).map
    fun o => { r with options := o }

def finish (r : Reading) : Except Departure Options :=
  if r.strangers.isEmpty then .ok r.options else .error (.misuse (.unrecognized r.strangers))

/-- Reads on through the arguments. -/
def readAll (r : Reading) : List Argument → Except Departure Options
  | [] => r.finish
  | .plain s :: rest => (r.addWord s).readAll rest
  | .separator :: rest => r.addSeparator.readAll rest
  | .unknown s :: rest => (r.closeGroup.addStrangers [s]).readAll rest
  | .flag u :: rest =>
    match Cluster.ofUse u with
    | .error e => .error (.misuse e)
    | .ok k =>
      let r := r.closeGroup
      match k.waiting with
      | none =>
        match r.setAll k.settled with
        | .error d => .error d
        | .ok r => r.readAll rest
      | some f =>
        match rest with
        | .plain value :: rest =>
          match r.setAll (k.settled ++ [(f, some value)]) with
          | .error d => .error d
          | .ok r => r.readAll rest
        | _ => .error (.misuse (.missingValue f))

end Reading

/-- What the words of a command line ask for. -/
def Options.ofWords (words : List String) : Except Departure Options :=
  match Argument.ofWords words with
  | .error e => .error (.misuse e)
  | .ok arguments => Reading.start.readAll arguments

end LostUpdate
