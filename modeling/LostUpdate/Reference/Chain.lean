import LostUpdate.Scope.Scoping

namespace LostUpdate

namespace Node

/-- A subscript that is a literal name or number; the truth values count as numbers. Integers of any
size have a text here, where recent interpreters refuse one of more than 4300 digits. -/
def subscriptKey? (n : Node) : Option String :=
  match n.form with
  | .constant (.text s) _ => some s
  | .constant (.integer i) _ => some (toString i)
  | .constant .true _ => some "True"
  | .constant .false _ => some "False"
  | _ => none

/-- What a node adds to a chain that passes through its value `i`. -/
def chainKey? (n : Node) (i : NodeId) : Option String :=
  match n.form with
  | .member value attr _ => if value.id = i then some attr else none
  | .subscript value index _ => if value.id = i then some (index.subscriptKey?.getD "*") else none
  | _ => none

/-- Whether node `i` is itself a target of the assignment `n`, not only part of one. -/
def assigns (n : Node) (i : NodeId) : Bool :=
  match n.form with
  | .assign targets _ => targets.any (·.id = i)
  | .augmented target .. | .annotated target .. => target.id = i
  | _ => false

/-- The value of an assignment statement or of `:=`. -/
def assignedValue? (n : Node) : Option Node :=
  match n.form with
  | .assign _ value | .augmented _ _ value | .walrus _ value => some value
  | .annotated _ _ value _ => value
  | _ => none

end Node

/-- The keys of the chain that starts at node `i`, along the nodes above it. -/
def chainKeys (i : NodeId) : List Node → List String
  | [] => []
  | p :: above =>
    match p.chainKey? i with
    | some key => key :: chainKeys p.id above
    | none => []

/-- The value stored through the chain that starts at node `i`, if an assignment ends it. -/
def chainValue? (i : NodeId) : List Node → Option Node
  | [] => none
  | p :: above =>
    if p.assigns i then p.assignedValue?
    else if (p.chainKey? i).isSome then chainValue? p.id above
    else none

/-- The node on the way up from `n` whose parent is `top`. -/
def childBelow? (top : NodeId) (n : Node) : List Node → Option Node
  | [] => none
  | p :: above => if p.id = top then some n else childBelow? top p above

namespace Tree

/-- The path of a reference: `obj`, `obj.a.b` and, for `obj["a"]` and `obj[key]`, `obj.a` and
`obj.*`. -/
def path (t : Tree) (r : NameUse) : String :=
  ".".intercalate (r.name :: chainKeys r.identifier.id (t.ancestors r.identifier.id))

/-- The value stored through an attribute or subscript chain: `a.b = value` reads `a` and writes
through it. -/
def chainValue? (t : Tree) (r : NameUse) : Option Node :=
  LostUpdate.chainValue? r.identifier.id (t.ancestors r.identifier.id)

/-- The expression whose value a reference stores, into the name itself or through its chain. -/
def storedValue? (t : Tree) (r : NameUse) : Option Node :=
  r.value <|> t.chainValue? r

/-- A reference that is read, unless it is read only for the sake of an assignment with a plain
`=` or `:=`. -/
def countsAsRead (t : Tree) (r : NameUse) (value : Option Node) : Bool :=
  r.isRead && match value with
    | none => true
    | some v => match (t.parent? v.id).map Node.form with
      | some (.assign ..) | some (.annotated ..) | some (.walrus ..) => false
      | _ => true

/-- Whether `value` is the value of an assignment; an annotated declaration of a bare name is none.
-/
def isAssignmentValue (t : Tree) (value : Option Node) : Bool :=
  match value with
  | none => false
  | some v => match (t.parent? v.id).map Node.form with
    | some (.assign _ w) | some (.augmented _ _ w) | some (.walrus _ w) => w.id = v.id
    | some (.annotated target _ (some w) _) => w.id = v.id && match target.form with
      | .name .. => false
      | _ => true
    | _ => false

/-- The part of the assignment `top` that contains a reference. -/
def targetIn? (t : Tree) (r : NameUse) (top : NodeId) : Option Node :=
  childBelow? top r.identifier (t.ancestors r.identifier.id)

end Tree

end LostUpdate
