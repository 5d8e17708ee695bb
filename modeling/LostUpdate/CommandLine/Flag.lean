namespace LostUpdate

inductive Flag
  | help | output | json | ciMode | maxViolations | sharedName | debug | quiet | version
  deriving DecidableEq, Repr

namespace Flag

def all : List Flag :=
  [help, output, json, ciMode, maxViolations, sharedName, debug, quiet, version]

def spellings : Flag → List String
  | help => ["-h", "--help"]
  | output => ["--output", "-o"]
  | json => ["--json"]
  | ciMode => ["--ci-mode"]
  | maxViolations => ["--max-violations"]
  | sharedName => ["--shared-name"]
  | debug => ["--debug"]
  | quiet => ["--quiet", "-q"]
  | version => ["--version"]

def takesValue : Flag → Bool
  | output | json | maxViolations | sharedName => true
  | _ => false

/-- A flag is called by all its spellings in messages. -/
def title (f : Flag) : String := "/".intercalate f.spellings

/-- All spellings, in the order of the flags. -/
def spelled : List (String × Flag) := all.flatMap fun f => f.spellings.map (·, f)

def ofSpelling? (s : String) : Option Flag := (spelled.find? (·.1 = s)).map (·.2)

end Flag

end LostUpdate
