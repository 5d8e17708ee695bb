import LostUpdate.Reference.Chain

namespace LostUpdate

/-- A variable as the analysis follows it: a binding, or a name that has none. -/
inductive Tracked
  | bound (scope : ScopeId) (name : String)
  | unbound (name : String)
  deriving DecidableEq, Repr

namespace Tracked

def name : Tracked → String
  | bound _ x | unbound x => x

/-- The scope that owns a variable; names without binding belong to the root. -/
def owner : Tracked → ScopeId
  | bound s _ => s
  | unbound _ => 0

end Tracked

namespace Scoping

def tracked (m : Scoping) (r : Reference) : Tracked :=
  match m.resolve r with
  | some s => .bound s r.name
  | none => .unbound r.name

/-- Whether `v`, used by the path `path`, is touched only by the code that owns it, as far as
`references` tell. A shared name never is. -/
def isConfined (m : Scoping) (shared : List String) (v : Tracked) (references : List Reference)
    (path : String) : Bool :=
  v.name ∉ shared && references.all fun r =>
    m.tree.path r.toNameUse ≠ path || m.variableScope r.scope = m.variableScope v.owner

end Scoping

end LostUpdate
