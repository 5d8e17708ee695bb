import LostUpdate.Proofs.Scope.Nesting
import LostUpdate.Proofs.Syntax.Parts

namespace LostUpdate

/-- A scope by its kind and the node that opens it. -/
structure Region where
  kind : ScopeKind
  node : Node

/-- Comprehensions and generator expressions let the bindings of `:=` pass outwards. -/
def Region.passesBindings (r : Region) : Bool :=
  r.kind = .comprehension || match r.node.form with
    | .comprehension .generator .. => true
    | _ => false

def Block.region (b : Block) : Region := ⟨b.kind, b.node⟩

namespace Node

/-- The region that a definition or comprehension opens. -/
def region (n : Node) : Region :=
  match n.form with
  | .classDef .. => ⟨.classBody, n⟩
  | .comprehension collector .. => ⟨collectorScope collector, n⟩
  | _ => ⟨.function, n⟩

/-- The parts that stand in the regions in which the node stands. The target of `:=` is left out,
since it is bound elsewhere. -/
def surface (n : Node) : List Node :=
  match n.form with
  | .function .. | .lambda .. | .classDef .. | .comprehension .. => n.heading
  | .walrus _ value => [value]
  | _ => n.children

/-- The parts that stand in the region which the node opens. -/
def interior (n : Node) : List Node :=
  match n.form with
  | .function _ _ _ body _ _ => body
  | .lambda _ body => [body]
  | .classDef _ _ _ body _ => body
  | .comprehension _ elements clauses =>
    clauses.head?.toList.flatMap turn ++ clauses.tail ++ elements
  | _ => []

/-- `p` is in `n`, and stands in the regions `cs` if `n` stands in `bs`, innermost first. -/
inductive Stands : List Region → Node → List Region → Node → Prop
  | self (bs : List Region) (n : Node) : Stands bs n bs n
  | surface {bs cs : List Region} {n c p : Node} :
    c ∈ n.surface → Stands bs c cs p → Stands bs n cs p
  | interior {bs cs : List Region} {n c p : Node} :
    c ∈ n.interior → Stands (n.region :: bs) c cs p → Stands bs n cs p

/-- `x` is the whole of `name`, or what stands in front of its first dot. -/
def IsFirstPart (x name : String) : Prop :=
  '.' ∉ x.toList ∧ (name = x ∨ ∃ rest, name = x ++ "." ++ rest)

/-- The node binds `x` where it stands: it stores or deletes the name, defines it, imports it, or
catches something under it. -/
inductive BindsHere (n : Node) (x : String) : Prop
  | name {context : Context} : n.form = .name x context → context ≠ .load → BindsHere n x
  | function {isAsync : Bool} {parameters : Node} {body decorators : List Node}
      {returns : Option Node} :
    n.form = .function isAsync x parameters body decorators returns → BindsHere n x
  | classDef {bases keywords body decorators : List Node} :
    n.form = .classDef x bases keywords body decorators → BindsHere n x
  | importModule {names : List Node} {a : Node} {name : String} {asName : Option String} :
    n.form = .importStmt names → a ∈ names → a.form = .alias name asName →
      asName.getD "" = "" → IsFirstPart x name → BindsHere n x
  | importModuleAs {names : List Node} {a : Node} {name : String} :
    n.form = .importStmt names → a ∈ names → a.form = .alias name (some x) → x ≠ "" → BindsHere n x
  | importMember {module : Option String} {names : List Node} {level : Int} {a : Node}
      {asName : Option String} :
    n.form = .importFrom module names level → a ∈ names → a.form = .alias x asName →
      asName.getD "" = "" → x ≠ "*" → BindsHere n x
  | importMemberAs {module : Option String} {names : List Node} {level : Int} {a : Node}
      {name : String} :
    n.form = .importFrom module names level → a ∈ names → a.form = .alias name (some x) → x ≠ "" →
      name ≠ "*" → BindsHere n x
  | handler {exception : Option Node} {body : List Node} :
    n.form = .handler exception (some x) body → x ≠ "" → BindsHere n x
  | matchAs {pattern : Option Node} : n.form = .matchAs pattern (some x) → x ≠ "" → BindsHere n x
  | matchStar : n.form = .matchStar (some x) → x ≠ "" → BindsHere n x
  | matchMapping {keys patterns : List Node} :
    n.form = .matchMapping keys patterns (some x) → x ≠ "" → BindsHere n x

/-- The list declares a parameter `x`, in one of the five places for parameters. -/
def DeclaresParameter (n : Node) (x : String) : Prop :=
  ∃ p q hint, n.form = .parameterList p ∧ q.form = .parameter x hint ∧
    (q ∈ p.positionalOnly ∨ q ∈ p.positional ∨ p.variadic = some q ∨ q ∈ p.keywordOnly ∨
      p.keywordVariadic = some q)

/-- The function or lambda has a parameter `x`. -/
inductive HasParameter (n : Node) (x : String) : Prop
  | function {isAsync : Bool} {name : String} {parameters : Node} {body decorators : List Node}
      {returns : Option Node} :
    n.form = .function isAsync name parameters body decorators returns →
      parameters.DeclaresParameter x → HasParameter n x
  | lambda {parameters body : Node} :
    n.form = .lambda parameters body → parameters.DeclaresParameter x → HasParameter n x

/-- The node is a `:=` that stores into `x`. -/
def Hoists (n : Node) (x : String) : Prop :=
  ∃ target value context, n.form = .walrus target value ∧ target.form = .name x context

/-- Whether the names that a target stores into say so, as the parser marks them. -/
def isPlace (n : Node) : Bool :=
  match n.form with
  | .name _ context => context ≠ .load
  | .tuple .. | .list .. | .starred .. => n.children.attach.all fun ⟨c, _⟩ => c.isPlace
  | _ => true
termination_by n
decreasing_by all_goals exact sizeOf_lt_of_mem_children ‹_›

/-- The targets of an assignment, or of one `for` part of a comprehension. -/
def places (n : Node) : List Node :=
  match n.form with
  | .clause target .. => [target]
  | _ => n.targets

/-- Whether all targets of assignments in `n` are marked as such. -/
def isMarked (n : Node) : Bool := n.preorder.all fun p => p.places.all isPlace

theorem isPlace_of_children {n : Node} (h : n.isPlace = true)
    (hn : (∃ l context, n.form = .tuple l context) ∨ (∃ l context, n.form = .list l context) ∨
      ∃ c context, n.form = .starred c context) : ∀ c ∈ n.children, c.isPlace = true := by
  rw [isPlace] at h
  rcases hn with ⟨l, context, hform⟩ | ⟨l, context, hform⟩ | ⟨c, context, hform⟩
  all_goals
    rw [hform] at h
    simpa using h

theorem isMarked_of_mem {n p : Node} (h : n.isMarked = true) (hp : p ∈ n.preorder) :
    p.isMarked = true := by
  rw [isMarked, List.all_eq_true] at h ⊢
  exact fun q hq => h q (mem_preorder_trans hp hq)

theorem isPlace_of_mem_places {n c : Node} (h : n.isMarked = true) (hc : c ∈ n.places) :
    c.isPlace = true :=
  List.all_eq_true.1 (List.all_eq_true.1 h n n.mem_preorder_self) c hc

end Node

/-- A tree as the parser gives it: it keeps to the grammar, and its targets are marked. -/
structure ParsedTree extends GrammaticalTree where
  isMarked : root.isMarked = true

/-- The tree of `m`, whose outline is `o`, is as the parser gives it. -/
structure Scoping.Parsed (m : Scoping) (o : Outline) : Prop extends m.Grammatical o where
  isMarked : m.tree.root.isMarked = true

@[reducible]
def Scoping.Parsed.tree {m : Scoping} {o : Outline} (h : m.Parsed o) : ParsedTree :=
  ⟨h.toGrammatical.tree, h.isMarked⟩

theorem Scoping.exists_parsed {t : ParsedTree} {m : Scoping} (h : ofTree t.toTree = .ok m) :
    ∃ o, m.Parsed o := by
  obtain ⟨o, ho⟩ := exists_grammatical h t.isGrammatical
  exact ⟨o, ho, tree_eq_of_ofTree h ▸ t.isMarked⟩

def Region.program (root : Node) : Region := ⟨.module, root⟩

section Rules

variable (root : Node)

/-- The regions `cs` of a program declare `x` as `global`. -/
def Node.DeclaresGlobal (cs : List Region) (x : String) : Prop :=
  ∃ p names, Stands [.program root] root cs p ∧ p.form = .globalDecl names ∧ x ∈ names

/-- The regions `cs` of a program declare `x` as `nonlocal`. -/
def Node.DeclaresNonlocal (cs : List Region) (x : String) : Prop :=
  ∃ p names, Stands [.program root] root cs p ∧ p.form = .nonlocalDecl names ∧ x ∈ names

/-- The innermost of the regions `cs` of a program binds `x`. -/
inductive Node.Binds : List Region → String → Prop
  | here {cs : List Region} {p : Node} {x : String} :
    Stands [.program root] root cs p → p.BindsHere x → Binds cs x
  | parameter {cs : List Region} {f : Node} {x : String} :
    Stands [.program root] root cs f → f.HasParameter x → Binds (f.region :: cs) x
  | hoisted {inner cs : List Region} {r : Region} {p : Node} {x : String} :
    Stands [.program root] root (inner ++ r :: cs) p → p.Hoists x →
      (∀ q ∈ inner, q.passesBindings = true) → r.passesBindings = false → Binds (r :: cs) x
  | global {cs : List Region} {x : String} :
    root.DeclaresGlobal cs x → Binds [.program root] x

end Rules

end LostUpdate
