import LostUpdate.Scope.Scoping
import LostUpdate.Text.Quoted

namespace LostUpdate

/-- The name that a block carries, or its kind. A block with a place for a name but none in it is
called `None`. -/
def Node.title (n : Node) : String :=
  match n.form.ownName? with
  | some (some name) => name
  | some none => "None"
  | none => n.kind

def Scope.describe (s : Scope) : String := "Scope(" ++ s.kind.text ++ ", " ++ s.block.title ++ ")"

def Variable.describe (v : Variable) (kind : ScopeKind) : String :=
  "Variable(" ++ Text.quoted v.name ++ ", " ++ kind.text ++ ")"

def NameUse.describe (r : NameUse) : String :=
  let line := match r.identifier.span with
    | some span => toString span.line
    | none => "?"
  "Reference(" ++ Text.quoted r.name ++ ", " ++ (if r.isRead then "r" else "") ++
    (if r.isWrite then "w" else "") ++ ", line " ++ line ++ ")"

end LostUpdate
