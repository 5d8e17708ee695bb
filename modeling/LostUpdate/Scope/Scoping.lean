import LostUpdate.Scope.Outline
import LostUpdate.Syntax.Tree

namespace LostUpdate

/-- A name bound in a scope, with the nodes that bind it. -/
structure Variable where
  name : String
  definitions : List Node

/-- An occurrence of a name together with the scope in which it stands. -/
structure Reference extends NameUse where
  scope : ScopeId

structure Scope where
  kind : ScopeKind
  block : Node
  enclosing : List ScopeId
  variableList : List Variable
  references : List Reference
  globals : List String
  nonlocals : List String

namespace Scope

def upper? (s : Scope) : Option ScopeId := s.enclosing.head?

def binds (s : Scope) (name : String) : Bool := s.variableList.any (·.name = name)

end Scope

/-- One act of binding a name. A `global` declaration binds in the root without a definition. -/
structure Binding where
  scope : ScopeId
  name : String
  definition : Option Node

namespace Outline

def declaredGlobal (entries : List (ScopeId × Entry)) (s : ScopeId) : List String :=
  entries.flatMap fun (t, e) => match e with
    | .declareGlobal names => if t = s then names else []
    | _ => []

def declaredNonlocal (entries : List (ScopeId × Entry)) (s : ScopeId) : List String :=
  entries.flatMap fun (t, e) => match e with
    | .declareNonlocal names => if t = s then names else []
    | _ => []

/-- The bindings of a program. What a scope declared before a binding decides where it goes:
`global` sends it to the root, `nonlocal` leaves it out; `declarations` are those before. -/
def bindingsAfter (declarations : List (ScopeId × Entry)) :
    List (ScopeId × Entry) → List Binding
  | [] => []
  | (s, .bind name definition) :: rest =>
    let later := bindingsAfter declarations rest
    if name ∈ declaredGlobal declarations s then ⟨0, name, some definition⟩ :: later
    else if name ∈ declaredNonlocal declarations s then later
    else ⟨s, name, some definition⟩ :: later
  | (s, .declareGlobal names) :: rest =>
    names.map (fun name => ⟨0, name, none⟩) ++
      bindingsAfter ((s, .declareGlobal names) :: declarations) rest
  | (s, .declareNonlocal names) :: rest =>
    bindingsAfter ((s, .declareNonlocal names) :: declarations) rest
  | (_, .use _) :: rest => bindingsAfter declarations rest

def bindings (o : Outline) : List Binding := bindingsAfter [] o.entries

/-- The variables of a scope in the order of their first bindings. -/
def variableList (bindings : List Binding) (s : ScopeId) : List Variable :=
  let own := bindings.filter (·.scope = s)
  (own.map (·.name)).eraseDups.map fun name =>
    ⟨name, (own.filter (·.name = name)).filterMap (·.definition)⟩

def references (o : Outline) (s : ScopeId) : List Reference :=
  o.entries.filterMap fun (t, e) => match e with
    | .use occurrence => if t = s then some ⟨occurrence, s⟩ else none
    | _ => none

def scopes (o : Outline) : List Scope :=
  let bindings := o.bindings
  o.blocks.zipIdx.map fun (b, s) =>
    ⟨b.kind, b.node, b.enclosing, variableList bindings s, o.references s,
      declaredGlobal o.entries s, declaredNonlocal o.entries s⟩

end Outline

/-- A program whose names have been looked into. -/
structure Scoping where
  tree : Tree
  scopes : List Scope

namespace Scoping

def ofTree (t : Tree) : Except ScopeError Scoping :=
  (Outline.ofRoot t.root).map fun o => ⟨t, o.scopes⟩

def scope? (m : Scoping) (s : ScopeId) : Option Scope := m.scopes[s]?

/-- A scope and the scopes around it, innermost first. -/
def chain (m : Scoping) (s : ScopeId) : List ScopeId :=
  match m.scope? s with
  | some scope => s :: scope.enclosing
  | none => []

def kind? (m : Scoping) (s : ScopeId) : Option ScopeKind := (m.scope? s).map (·.kind)

/-- The nearest scope, from `s` outwards, whose code runs on its own: a function or the root. -/
def variableScope (m : Scoping) (s : ScopeId) : ScopeId :=
  ((m.chain s).find? fun t => m.kind? t = some .module || m.kind? t = some .function).getD 0

def binds (m : Scoping) (s : ScopeId) (name : String) : Bool :=
  match m.scope? s with
  | some scope => scope.binds name
  | none => false

/-- Looks a name up in the scopes of a list, one after the other. Class bodies are seen only from
the scope `start` itself. -/
def lookupIn (m : Scoping) (start : ScopeId) (name : String) : List ScopeId → Option ScopeId
  | [] => none
  | s :: rest =>
    match m.scope? s with
    | none => m.lookupIn start name rest
    | some scope =>
      if s = start ∨ scope.kind ≠ .classBody then
        if name ∈ scope.globals then
          if m.binds 0 name then some 0 else none
        else if name ∉ scope.nonlocals ∧ scope.binds name then some s
        else m.lookupIn start name rest
      else m.lookupIn start name rest

/-- The scope whose variable `name` means when it is used in scope `s`. -/
def lookup (m : Scoping) (s : ScopeId) (name : String) : Option ScopeId :=
  m.lookupIn s name (m.chain s)

def resolve (m : Scoping) (r : Reference) : Option ScopeId := m.lookup r.scope r.name

def references (m : Scoping) : List Reference := m.scopes.flatMap (·.references)

def unresolved (m : Scoping) : List Reference :=
  m.references.filter fun r => (m.resolve r).isNone

/-- The references that mean the variable `name` of scope `s`. -/
def referencesTo (m : Scoping) (s : ScopeId) (name : String) : List Reference :=
  m.references.filter fun r => r.name = name && m.resolve r = some s

/-- The scope that a node opens. A lone definition taken for a program opens two, the root and its
own; the inner one counts. -/
def opened? (m : Scoping) (i : NodeId) : Option ScopeId :=
  (m.scopes.zipIdx.findRev? fun (scope, _) => scope.block.id = i).map (·.2)

/-- Whether scope `s` is part of the code of scope `t`: equal to it, or inside it with no function
in between. -/
def isPartOf (m : Scoping) (t s : ScopeId) : Bool :=
  t ∈ m.chain s && ((m.chain s).takeWhile (· ≠ t)).all fun u => m.kind? u ≠ some .function

/-- The references in the code of scope `t`, nested functions left out. -/
def codeReferences (m : Scoping) (t : ScopeId) : List Reference :=
  m.scopes.zipIdx.flatMap fun (scope, s) => if m.isPartOf t s then scope.references else []

def children (m : Scoping) (t : ScopeId) : List ScopeId :=
  m.scopes.zipIdx.filterMap fun (scope, s) => if scope.upper? = some t then some s else none

end Scoping

end LostUpdate
