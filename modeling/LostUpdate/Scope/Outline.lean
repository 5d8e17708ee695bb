import LostUpdate.Scope.Directive

namespace LostUpdate

/-- Scopes are numbered in the order in which they open; the root is scope 0. -/
abbrev ScopeId := Nat

/-- A scope without its contents. `enclosing` lists the scopes around it, innermost first. -/
structure Block where
  kind : ScopeKind
  node : Node
  enclosing : List ScopeId

namespace Block

/-- Comprehensions and generator expressions let the bindings of `:=` pass outwards. -/
def passesBindings (b : Block) : Bool :=
  b.kind = .comprehension || match b.node.form with
    | .comprehension .generator .. => true
    | _ => false

end Block

/-- What a scope says about names. -/
inductive Entry
  | use (occurrence : NameUse)
  | bind (name : String) (definition : Node)
  | declareGlobal (names : List String)
  | declareNonlocal (names : List String)

structure Outline where
  blocks : List Block
  /-- Each entry with its scope, in the order of the program. -/
  entries : List (ScopeId × Entry)

/-- Why a program has no scopes: a binding passes outwards and no scope is left to take it. -/
inductive ScopeError
  | bindingLeavesProgram
  deriving DecidableEq, Repr

namespace Outline

def addEntry (s : ScopeId) (e : Entry) (o : Outline) : Outline :=
  ⟨o.blocks, (s, e) :: o.entries⟩

/-- The nearest of the open scopes that keeps bindings to itself. -/
def receiver? (blocks : List Block) (opened : List ScopeId) : Option ScopeId :=
  opened.find? fun s => match blocks[s]? with
    | some b => !b.passesBindings
    | none => false

/-- The outline of directives that come when `blocks` have been opened and `opened`, innermost
first, are not yet closed. -/
def ofDirectives (blocks : List Block) (opened : List ScopeId) :
    List Directive → Except ScopeError Outline
  | [] => .ok ⟨blocks, []⟩
  | .openScope kind node :: rest =>
    ofDirectives (blocks ++ [⟨kind, node, opened⟩]) (blocks.length :: opened) rest
  | .closeScope :: rest => ofDirectives blocks opened.tail rest
  | .hoist name definition :: rest =>
    match receiver? blocks opened with
    | some s => (ofDirectives blocks opened rest).map (addEntry s (.bind name definition))
    | none => .error .bindingLeavesProgram
  | .use occurrence :: rest =>
    (ofDirectives blocks opened rest).map (addEntry (opened.headD 0) (.use occurrence))
  | .bind name definition :: rest =>
    (ofDirectives blocks opened rest).map (addEntry (opened.headD 0) (.bind name definition))
  | .declareGlobal names :: rest =>
    (ofDirectives blocks opened rest).map (addEntry (opened.headD 0) (.declareGlobal names))
  | .declareNonlocal names :: rest =>
    (ofDirectives blocks opened rest).map (addEntry (opened.headD 0) (.declareNonlocal names))

/-- The outline of a program, or of a lone statement or expression taken for a program. -/
def ofRoot (root : Node) : Except ScopeError Outline :=
  ofDirectives [⟨.module, root, []⟩] [0] root.directives

end Outline

end LostUpdate
