namespace LostUpdate

/-- What a name, attribute, subscript or display is used for. -/
inductive Context
  | load | store | del
  deriving DecidableEq, Repr

inductive BooleanOp
  | and | or
  deriving DecidableEq, Repr

inductive BinaryOp
  | add | sub | mult | matMult | div | mod | pow | lShift | rShift | bitOr | bitXor | bitAnd
  | floorDiv
  deriving DecidableEq, Repr

inductive UnaryOp
  | invert | not | plus | minus
  deriving DecidableEq, Repr

inductive CompareOp
  | equal | notEqual | less | atMost | greater | atLeast | same | notSame | isIn | isNotIn
  deriving DecidableEq, Repr

/-- The value of a literal. Floats and imaginary numbers are known by their shortest text. -/
inductive Literal
  | text (s : String)
  | integer (n : Int)
  | float (shortest : String)
  | imaginary (shortest : String)
  | bytes (bs : List UInt8)
  | none | true | false | ellipsis
  deriving DecidableEq, Repr

/-- The four ways to write a comprehension. -/
inductive Collector
  | list | set | dict | generator
  deriving DecidableEq, Repr

/-- Where a node stands in the text: lines from one, columns in bytes from zero. Trees made by hand
may lack an end. -/
structure Span where
  line : Int
  column : Int
  endLine : Option Int
  endColumn : Option Int
  deriving DecidableEq, Repr

/-- The parameters of a function, as written. `keywordDefaults` has a place for each keyword-only
parameter, empty if it has no default. -/
structure Parameters (α : Type) where
  positionalOnly : List α
  positional : List α
  variadic : Option α
  keywordOnly : List α
  keywordDefaults : List (Option α)
  keywordVariadic : Option α
  defaults : List α

namespace Parameters

variable {α : Type}

/-- In the order of the fields. -/
def children (p : Parameters α) : List α :=
  p.positionalOnly ++ p.positional ++ p.variadic.toList ++ p.keywordOnly ++
    p.keywordDefaults.filterMap id ++ p.keywordVariadic.toList ++ p.defaults

/-- The parameters themselves: the named ones first, then the variadic ones. -/
def declared (p : Parameters α) : List α :=
  p.positionalOnly ++ p.positional ++ p.keywordOnly ++ p.variadic.toList ++ p.keywordVariadic.toList

/-- The default values in the order in which a definition evaluates them. -/
def defaultValues (p : Parameters α) : List α :=
  p.defaults ++ p.keywordDefaults.filterMap id

theorem mem_children_of_mem_declared {p : Parameters α} {x : α} (h : x ∈ p.declared) :
    x ∈ p.children := by
  simp only [declared, children, List.mem_append] at h ⊢
  grind

theorem mem_children_of_mem_defaultValues {p : Parameters α} {x : α} (h : x ∈ p.defaultValues) :
    x ∈ p.children := by
  simp only [defaultValues, children, List.mem_append] at h ⊢
  grind

end Parameters

/-- One layer of a syntax tree. -/
inductive Form (α : Type)
  -- roots
  | module (body : List α)
  | interactive (body : List α)
  | expression (body : α)
  -- definitions
  | function (isAsync : Bool) (name : String) (parameters : α) (body decorators : List α)
      (returns : Option α)
  | classDef (name : String) (bases keywords body decorators : List α)
  -- statements
  | returnStmt (value : Option α)
  | deleteStmt (targets : List α)
  | assign (targets : List α) (value : α)
  | augmented (target : α) (op : BinaryOp) (value : α)
  | annotated (target hint : α) (value : Option α) (simple : Int)
  | forLoop (isAsync : Bool) (target iterable : α) (body orelse : List α)
  | whileLoop (test : α) (body orelse : List α)
  | ifStmt (test : α) (body orelse : List α)
  | withStmt (isAsync : Bool) (items body : List α)
  | matchStmt (subject : α) (cases : List α)
  | raiseStmt (exception cause : Option α)
  | tryStmt (isStar : Bool) (body handlers orelse final : List α)
  | assertStmt (test : α) (message : Option α)
  | importStmt (names : List α)
  | importFrom (module : Option String) (names : List α) (level : Int)
  | globalDecl (names : List String)
  | nonlocalDecl (names : List String)
  | exprStmt (value : α)
  | pass | breakStmt | continueStmt
  -- expressions
  | boolean (op : BooleanOp) (values : List α)
  | walrus (target value : α)
  | binary (left : α) (op : BinaryOp) (right : α)
  | unary (op : UnaryOp) (operand : α)
  | lambda (parameters body : α)
  | conditional (test body orelse : α)
  | dict (keys : List (Option α)) (values : List α)
  | set (elements : List α)
  | comprehension (collector : Collector) (elements clauses : List α)
  | await (value : α)
  | yield (value : Option α)
  | yieldFrom (value : α)
  | compare (left : α) (ops : List CompareOp) (comparators : List α)
  | call (callee : α) (arguments keywords : List α)
  | formatted (value : α) (conversion : Int) (spec : Option α)
  | joined (values : List α)
  | constant (value : Literal) (kind : Option String)
  | member (value : α) (name : String) (context : Context)
  | subscript (value index : α) (context : Context)
  | starred (value : α) (context : Context)
  | name (name : String) (context : Context)
  | list (elements : List α) (context : Context)
  | tuple (elements : List α) (context : Context)
  | slice (lower upper step : Option α)
  -- parts of other forms
  | clause (target iterable : α) (conditions : List α) (isAsync : Bool)
  | handler (exception : Option α) (name : Option String) (body : List α)
  | parameterList (parameters : Parameters α)
  | parameter (name : String) (hint : Option α)
  | keyword (name : Option String) (value : α)
  | alias (name : String) (asName : Option String)
  | withItem (context : α) (target : Option α)
  | matchCase (pattern : α) (guard : Option α) (body : List α)
  -- patterns
  | matchValue (value : α)
  | matchSingleton (value : Literal)
  | matchSequence (patterns : List α)
  | matchMapping (keys patterns : List α) (rest : Option String)
  | matchClass (cls : α) (patterns : List α) (attributes : List String) (attributePatterns : List α)
  | matchStar (name : Option String)
  | matchAs (pattern : Option α) (name : Option String)
  | matchOr (patterns : List α)

namespace Form

variable {α : Type}

/-- The children of a layer in the order of its fields. -/
def children : Form α → List α
  | .module body | .interactive body => body
  | .expression body => [body]
  | .function _ _ params body decorators returns =>
    params :: (body ++ decorators ++ returns.toList)
  | .classDef _ bases keywords body decorators => bases ++ keywords ++ body ++ decorators
  | .returnStmt value | .yield value => value.toList
  | .deleteStmt targets => targets
  | .assign targets value => targets ++ [value]
  | .augmented target _ value => [target, value]
  | .annotated target hint value _ => target :: hint :: value.toList
  | .forLoop _ target iterable body orelse => target :: iterable :: (body ++ orelse)
  | .whileLoop test body orelse | .ifStmt test body orelse => test :: (body ++ orelse)
  | .withStmt _ items body => items ++ body
  | .matchStmt subject cases => subject :: cases
  | .raiseStmt exception cause => exception.toList ++ cause.toList
  | .tryStmt _ body handlers orelse final => body ++ handlers ++ orelse ++ final
  | .assertStmt test message => test :: message.toList
  | .importStmt names | .importFrom _ names _ => names
  | .globalDecl _ | .nonlocalDecl _ | .pass | .breakStmt | .continueStmt => []
  | .exprStmt value => [value]
  | .boolean _ values => values
  | .walrus target value => [target, value]
  | .binary left _ right => [left, right]
  | .unary _ operand => [operand]
  | .lambda params body => [params, body]
  | .conditional test body orelse => [test, body, orelse]
  | .dict keys values => keys.filterMap id ++ values
  | .set elements => elements
  | .comprehension _ elements clauses => elements ++ clauses
  | .await value | .yieldFrom value => [value]
  | .compare left _ comparators => left :: comparators
  | .call callee arguments keywords => callee :: (arguments ++ keywords)
  | .formatted value _ spec => value :: spec.toList
  | .joined values => values
  | .constant _ _ | .name _ _ => []
  | .member value _ _ | .starred value _ => [value]
  | .subscript value index _ => [value, index]
  | .list elements _ | .tuple elements _ => elements
  | .slice lower upper step => lower.toList ++ upper.toList ++ step.toList
  | .clause target iterable conditions _ => target :: iterable :: conditions
  | .handler exception _ body => exception.toList ++ body
  | .parameterList p => p.children
  | .parameter _ hint => hint.toList
  | .keyword _ value => [value]
  | .alias _ _ => []
  | .withItem context target => context :: target.toList
  | .matchCase pattern guard body => pattern :: (guard.toList ++ body)
  | .matchValue value => [value]
  | .matchSingleton _ | .matchStar _ => []
  | .matchSequence patterns | .matchOr patterns => patterns
  | .matchMapping keys patterns _ => keys ++ patterns
  | .matchClass cls patterns _ attributePatterns => cls :: (patterns ++ attributePatterns)
  | .matchAs pattern _ => pattern.toList

end Form

abbrev NodeId := Nat

/-- A node of a syntax tree. Two nodes of one tree are the same node when their identities agree. -/
inductive Node
  | mk (id : NodeId) (span : Option Span) (form : Form Node)

namespace Node

def id : Node → NodeId
  | mk i _ _ => i

def span : Node → Option Span
  | mk _ s _ => s

def form : Node → Form Node
  | mk _ _ f => f

def children (n : Node) : List Node := n.form.children

end Node

section Size

variable {α : Type} [SizeOf α]

private theorem sizeOf_toList_lt {x : α} {o : Option α} (h : x ∈ o.toList) :
    sizeOf x < sizeOf o := by
  cases o with
  | none => simp at h
  | some y => simp at h; subst h; simp

private theorem sizeOf_filterMap_lt {x : α} {l : List (Option α)} (h : x ∈ l.filterMap id) :
    sizeOf x < sizeOf l := by
  simp only [List.mem_filterMap, id_eq] at h
  obtain ⟨o, ho, rfl⟩ := h
  have := List.sizeOf_lt_of_mem ho
  simp at this
  omega

theorem Parameters.sizeOf_lt_of_mem_children {p : Parameters α} {x : α} (h : x ∈ p.children) :
    sizeOf x < sizeOf p := by
  cases p
  simp only [children, List.mem_append] at h
  simp only [Parameters.mk.sizeOf_spec]
  rcases h with (((((h | h) | h) | h) | h) | h) | h <;>
    first
    | have := List.sizeOf_lt_of_mem h; omega
    | have := sizeOf_toList_lt h; omega
    | have := sizeOf_filterMap_lt h; omega

theorem Form.sizeOf_lt_of_mem_children {f : Form α} {x : α} (h : x ∈ f.children) :
    sizeOf x < sizeOf f := by
  cases f
  case parameterList p =>
    have := p.sizeOf_lt_of_mem_children h
    simp only [parameterList.sizeOf_spec]
    omega
  all_goals simp only [children, List.mem_cons, List.mem_append, List.not_mem_nil, or_false] at h
  all_goals
    simp
    grind [→ List.sizeOf_lt_of_mem, → sizeOf_toList_lt, → sizeOf_filterMap_lt]

end Size

namespace Node

theorem sizeOf_lt_of_mem_children {n c : Node} (h : c ∈ n.children) : sizeOf c < sizeOf n := by
  cases n
  have := Form.sizeOf_lt_of_mem_children h
  simp only [mk.sizeOf_spec, form] at this ⊢
  omega

/-- Whatever passes from all children of a node to the node holds of every node. -/
@[elab_as_elim]
theorem induct {motive : Node → Prop}
    (step : ∀ n, (∀ c ∈ n.children, motive c) → motive n) (n : Node) : motive n :=
  step n fun c h => have := sizeOf_lt_of_mem_children h; induct step c
termination_by n

end Node

end LostUpdate
