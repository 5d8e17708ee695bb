import LostUpdate.Syntax.Heading
import LostUpdate.Syntax.Kind

namespace LostUpdate

inductive ScopeKind
  | module | function | classBody | comprehension
  deriving DecidableEq, Repr

def ScopeKind.text : ScopeKind → String
  | module => "module"
  | function => "function"
  | classBody => "class"
  | comprehension => "comprehension"

/-- One occurrence of a name: the node, whether its value is read or stored, and the expression
whose value is stored, if the occurrence is the target of an assignment. -/
structure NameUse where
  identifier : Node
  name : String
  isRead : Bool
  isWrite : Bool
  value : Option Node

inductive Directive
  | use (occurrence : NameUse)
  | bind (name : String) (definition : Node)
  /-- A binding that passes out of comprehensions and generator expressions. -/
  | hoist (name : String) (definition : Node)
  | declareGlobal (names : List String)
  | declareNonlocal (names : List String)
  | openScope (kind : ScopeKind) (block : Node)
  | closeScope

namespace Node

/-- An empty name counts as none. -/
def bindName (name : Option String) (definition : Node) : List Directive :=
  match name with
  | some x => if x = "" then [] else [.bind x definition]
  | none => []

/-- A dotted name up to its first dot. -/
def firstPart (name : String) : String := String.ofList (name.toList.takeWhile (· ≠ '.'))

/-- The name that `import a.b.c as d` binds: `d`, or `a` if there is no `as` part. -/
def importedName (n : Node) : Option String :=
  match n.form with
  | .alias name (some asName) => some (if asName = "" then firstPart name else asName)
  | .alias name none => some (firstPart name)
  | _ => none

/-- The name that `from m import a as d` binds; a star binds none. -/
def importedMember (n : Node) : Option String :=
  match n.form with
  | .alias name asName =>
    if name = "*" then none
    else match asName with
      | some asName => some (if asName = "" then name else asName)
      | none => some name
  | _ => none

/-- The comprehension's own scope is a function only for a generator expression. -/
def collectorScope : Collector → ScopeKind
  | .generator => .function
  | _ => .comprehension

mutual

/-- The directives of a node and all below it. -/
def directives (n : Node) : List Directive :=
  match _h : n with
  | .mk _ _ (.name x .load) => [.use ⟨n, x, true, false, none⟩]
  | .mk _ _ (.name x _) => [.bind x n, .use ⟨n, x, false, true, none⟩]
  | .mk _ _ (.assign targets value) =>
    targets.flatMap (storeDirectives (some value) false) ++ value.directives
  | .mk _ _ (.augmented target _ value) =>
    target.storeDirectives (some value) true ++ value.directives
  | .mk _ _ (.annotated target hint (some value) _) =>
    target.storeDirectives (some value) false ++ hint.directives ++ value.directives
  | .mk _ _ (.annotated target hint none _) =>
    (match target.form with
    | .name x _ => [.bind x target]
    | _ => target.directives) ++ hint.directives
  | .mk _ _ (.walrus target value) =>
    (match target.form with
    | .name x _ => [.hoist x target, .use ⟨target, x, false, true, some value⟩]
    | _ => []) ++ value.directives
  | .mk _ _ (.globalDecl names) => [.declareGlobal names]
  | .mk _ _ (.nonlocalDecl names) => [.declareNonlocal names]
  | .mk _ _ (.importStmt names) => (names.filterMap importedName).map (.bind · n)
  | .mk _ _ (.importFrom _ names _) => (names.filterMap importedMember).map (.bind · n)
  | .mk _ _ (.handler exception name body) =>
    (match exception with
    | some e => e.directives
    | none => []) ++ bindName name n ++ body.flatMap directives
  | .mk _ _ (.matchAs pattern name) =>
    (match pattern with
    | some p => p.directives
    | none => []) ++ bindName name n
  | .mk _ _ (.matchStar name) => bindName name n
  | .mk _ _ (.matchMapping keys patterns rest) =>
    keys.flatMap directives ++ patterns.flatMap directives ++ bindName rest n
  | .mk _ _ (.function _ name parameters body _ _) =>
    (n.heading.attach.flatMap fun ⟨c, _⟩ => c.directives) ++
      [.bind name n, .openScope .function n] ++
      parameters.declaredParameters.map (fun (x, p) => .bind x p) ++ body.flatMap directives ++
      [.closeScope]
  | .mk _ _ (.lambda parameters body) =>
    (n.heading.attach.flatMap fun ⟨c, _⟩ => c.directives) ++ [.openScope .function n] ++
      parameters.declaredParameters.map (fun (x, p) => .bind x p) ++ body.directives ++
      [.closeScope]
  | .mk _ _ (.classDef name _ _ body _) =>
    (n.heading.attach.flatMap fun ⟨c, _⟩ => c.directives) ++
      [.bind name n, .openScope .classBody n] ++ body.flatMap directives ++ [.closeScope]
  | .mk _ _ (.comprehension collector elements clauses) =>
    (n.heading.attach.flatMap fun ⟨c, _⟩ => c.directives) ++
      [.openScope (collectorScope collector) n] ++
      (match clauses with
      | [] => []
      | first :: rest => first.clauseDirectives true ++ rest.flatMap (clauseDirectives false)) ++
      elements.flatMap directives ++ [.closeScope]
  | _ => n.children.attach.flatMap fun ⟨c, _⟩ => c.directives
termination_by (n, 1)
decreasing_by
  all_goals
    first
    | exact .left _ _ (_h ▸ sizeOf_lt_of_mem_heading ‹_›)
    | exact .left _ _ (_h ▸ sizeOf_lt_of_mem_children ‹_›)
    | decreasing_tactic

/-- The directives of an assignment target that stores `value`; `isRead` if it is read first. -/
def storeDirectives (value : Option Node) (isRead : Bool) (n : Node) : List Directive :=
  match n with
  | .mk _ _ (.name x _) => [.bind x n, .use ⟨n, x, isRead, true, value⟩]
  | .mk _ _ (.tuple elements _) => elements.flatMap (storeDirectives value false)
  | .mk _ _ (.list elements _) => elements.flatMap (storeDirectives value false)
  | .mk _ _ (.starred inner _) => inner.storeDirectives value false
  | n => n.directives
termination_by (n, 2)

/-- The directives of one `for` part of a comprehension, with its iterable or without. -/
def clauseDirectives (skipsIterable : Bool) (n : Node) : List Directive :=
  match n with
  | .mk _ _ (.clause target iterable conditions _) =>
    (if skipsIterable then [] else iterable.directives) ++ target.storeDirectives none false ++
      conditions.flatMap directives
  | _ => []
termination_by (n, 0)

end

end Node

end LostUpdate
