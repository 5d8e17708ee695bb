import LostUpdate.Json.Basic
import LostUpdate.Syntax.Parsed

namespace LostUpdate.Encoding

/-- What stands in a field. -/
inductive Shape
  | node | optionalNode | nodes | optionalNodes
  | name | optionalName | names
  | integer | flag | literal
  | context | booleanOp | binaryOp | unaryOp | compareOps

def Shape.Value : Shape → Type
  | node => Node
  | optionalNode => Option Node
  | nodes => List Node
  | optionalNodes => List (Option Node)
  | name => String
  | optionalName => Option String
  | names => List String
  | integer => Int
  | flag => Bool
  | literal => Literal
  | context => Context
  | booleanOp => BooleanOp
  | binaryOp => BinaryOp
  | unaryOp => UnaryOp
  | compareOps => List CompareOp

/-- A function that takes the values of the fields and makes a form. -/
def Builder : List Shape → Type
  | [] => Form Node
  | s :: rest => s.Value → Builder rest

structure Production where
  kind : String
  isPlaced : Bool
  fields : List (String × Shape)
  build : Builder (fields.map (·.2))

open Shape in
/-- How nodes are written as JSON, kind by kind: an array of the kind, of four numbers for the place if
it has one, and of the fields. -/
def grammar : List Production := [
  ⟨"Module", false, [("body", nodes)], Form.module⟩,
  ⟨"Interactive", false, [("body", nodes)], Form.interactive⟩,
  ⟨"Expression", false, [("body", node)], Form.expression⟩,
  ⟨"FunctionDef", true, [("name", name), ("args", node), ("body", nodes),
    ("decorator_list", nodes), ("returns", optionalNode)], Form.function false⟩,
  ⟨"AsyncFunctionDef", true, [("name", name), ("args", node), ("body", nodes),
    ("decorator_list", nodes), ("returns", optionalNode)], Form.function true⟩,
  ⟨"ClassDef", true, [("name", name), ("bases", nodes), ("keywords", nodes), ("body", nodes),
    ("decorator_list", nodes)], Form.classDef⟩,
  ⟨"Return", true, [("value", optionalNode)], Form.returnStmt⟩,
  ⟨"Delete", true, [("targets", nodes)], Form.deleteStmt⟩,
  ⟨"Assign", true, [("targets", nodes), ("value", node)], Form.assign⟩,
  ⟨"AugAssign", true, [("target", node), ("op", binaryOp), ("value", node)], Form.augmented⟩,
  ⟨"AnnAssign", true, [("target", node), ("annotation", node), ("value", optionalNode),
    ("simple", integer)], Form.annotated⟩,
  ⟨"For", true, [("target", node), ("iter", node), ("body", nodes), ("orelse", nodes)],
    Form.forLoop false⟩,
  ⟨"AsyncFor", true, [("target", node), ("iter", node), ("body", nodes), ("orelse", nodes)],
    Form.forLoop true⟩,
  ⟨"While", true, [("test", node), ("body", nodes), ("orelse", nodes)], Form.whileLoop⟩,
  ⟨"If", true, [("test", node), ("body", nodes), ("orelse", nodes)], Form.ifStmt⟩,
  ⟨"With", true, [("items", nodes), ("body", nodes)], Form.withStmt false⟩,
  ⟨"AsyncWith", true, [("items", nodes), ("body", nodes)], Form.withStmt true⟩,
  ⟨"Match", true, [("subject", node), ("cases", nodes)], Form.matchStmt⟩,
  ⟨"Raise", true, [("exc", optionalNode), ("cause", optionalNode)], Form.raiseStmt⟩,
  ⟨"Try", true, [("body", nodes), ("handlers", nodes), ("orelse", nodes), ("finalbody", nodes)],
    Form.tryStmt false⟩,
  ⟨"TryStar", true, [("body", nodes), ("handlers", nodes), ("orelse", nodes),
    ("finalbody", nodes)], Form.tryStmt true⟩,
  ⟨"Assert", true, [("test", node), ("msg", optionalNode)], Form.assertStmt⟩,
  ⟨"Import", true, [("names", nodes)], Form.importStmt⟩,
  ⟨"ImportFrom", true, [("module", optionalName), ("names", nodes), ("level", integer)],
    Form.importFrom⟩,
  ⟨"Global", true, [("names", names)], Form.globalDecl⟩,
  ⟨"Nonlocal", true, [("names", names)], Form.nonlocalDecl⟩,
  ⟨"Expr", true, [("value", node)], Form.exprStmt⟩,
  ⟨"Pass", true, [], Form.pass⟩,
  ⟨"Break", true, [], Form.breakStmt⟩,
  ⟨"Continue", true, [], Form.continueStmt⟩,
  ⟨"BoolOp", true, [("op", booleanOp), ("values", nodes)], Form.boolean⟩,
  ⟨"NamedExpr", true, [("target", node), ("value", node)], Form.walrus⟩,
  ⟨"BinOp", true, [("left", node), ("op", binaryOp), ("right", node)], Form.binary⟩,
  ⟨"UnaryOp", true, [("op", unaryOp), ("operand", node)], Form.unary⟩,
  ⟨"Lambda", true, [("args", node), ("body", node)], Form.lambda⟩,
  ⟨"IfExp", true, [("test", node), ("body", node), ("orelse", node)], Form.conditional⟩,
  ⟨"Dict", true, [("keys", optionalNodes), ("values", nodes)], Form.dict⟩,
  ⟨"Set", true, [("elts", nodes)], Form.set⟩,
  ⟨"ListComp", true, [("elt", node), ("generators", nodes)],
    fun element clauses => Form.comprehension .list [element] clauses⟩,
  ⟨"SetComp", true, [("elt", node), ("generators", nodes)],
    fun element clauses => Form.comprehension .set [element] clauses⟩,
  ⟨"DictComp", true, [("key", node), ("value", node), ("generators", nodes)],
    fun key value clauses => Form.comprehension .dict [key, value] clauses⟩,
  ⟨"GeneratorExp", true, [("elt", node), ("generators", nodes)],
    fun element clauses => Form.comprehension .generator [element] clauses⟩,
  ⟨"Await", true, [("value", node)], Form.await⟩,
  ⟨"Yield", true, [("value", optionalNode)], Form.yield⟩,
  ⟨"YieldFrom", true, [("value", node)], Form.yieldFrom⟩,
  ⟨"Compare", true, [("left", node), ("ops", compareOps), ("comparators", nodes)], Form.compare⟩,
  ⟨"Call", true, [("func", node), ("args", nodes), ("keywords", nodes)], Form.call⟩,
  ⟨"FormattedValue", true, [("value", node), ("conversion", integer),
    ("format_spec", optionalNode)], Form.formatted⟩,
  ⟨"JoinedStr", true, [("values", nodes)], Form.joined⟩,
  ⟨"Constant", true, [("value", literal), ("kind", optionalName)], Form.constant⟩,
  ⟨"Attribute", true, [("value", node), ("attr", name), ("ctx", context)], Form.member⟩,
  ⟨"Subscript", true, [("value", node), ("slice", node), ("ctx", context)], Form.subscript⟩,
  ⟨"Starred", true, [("value", node), ("ctx", context)], Form.starred⟩,
  ⟨"Name", true, [("id", name), ("ctx", context)], Form.name⟩,
  ⟨"List", true, [("elts", nodes), ("ctx", context)], Form.list⟩,
  ⟨"Tuple", true, [("elts", nodes), ("ctx", context)], Form.tuple⟩,
  ⟨"Slice", true, [("lower", optionalNode), ("upper", optionalNode), ("step", optionalNode)],
    Form.slice⟩,
  ⟨"comprehension", false, [("target", node), ("iter", node), ("ifs", nodes), ("is_async", flag)],
    Form.clause⟩,
  ⟨"ExceptHandler", true, [("type", optionalNode), ("name", optionalName), ("body", nodes)],
    Form.handler⟩,
  ⟨"arguments", false, [("posonlyargs", nodes), ("args", nodes), ("vararg", optionalNode),
    ("kwonlyargs", nodes), ("kw_defaults", optionalNodes), ("kwarg", optionalNode),
    ("defaults", nodes)],
    fun posOnly pos var kwOnly kwDefaults kwVar defaults =>
      Form.parameterList ⟨posOnly, pos, var, kwOnly, kwDefaults, kwVar, defaults⟩⟩,
  ⟨"arg", true, [("arg", name), ("annotation", optionalNode)], Form.parameter⟩,
  ⟨"keyword", true, [("arg", optionalName), ("value", node)], Form.keyword⟩,
  ⟨"alias", true, [("name", name), ("asname", optionalName)], Form.alias⟩,
  ⟨"withitem", false, [("context_expr", node), ("optional_vars", optionalNode)], Form.withItem⟩,
  ⟨"match_case", false, [("pattern", node), ("guard", optionalNode), ("body", nodes)],
    Form.matchCase⟩,
  ⟨"MatchValue", true, [("value", node)], Form.matchValue⟩,
  ⟨"MatchSingleton", true, [("value", literal)], Form.matchSingleton⟩,
  ⟨"MatchSequence", true, [("patterns", nodes)], Form.matchSequence⟩,
  ⟨"MatchMapping", true, [("keys", nodes), ("patterns", nodes), ("rest", optionalName)],
    Form.matchMapping⟩,
  ⟨"MatchClass", true, [("cls", node), ("patterns", nodes), ("kwd_attrs", names),
    ("kwd_patterns", nodes)], Form.matchClass⟩,
  ⟨"MatchStar", true, [("name", optionalName)], Form.matchStar⟩,
  ⟨"MatchAs", true, [("pattern", optionalNode), ("name", optionalName)], Form.matchAs⟩,
  ⟨"MatchOr", true, [("patterns", nodes)], Form.matchOr⟩]

def production? (kind : String) : Option Production := grammar.find? (·.kind = kind)

def context? : String → Option Context
  | "Load" => some .load
  | "Store" => some .store
  | "Del" => some .del
  | _ => none

def booleanOp? : String → Option BooleanOp
  | "And" => some .and
  | "Or" => some .or
  | _ => none

def binaryOp? : String → Option BinaryOp
  | "Add" => some .add
  | "Sub" => some .sub
  | "Mult" => some .mult
  | "MatMult" => some .matMult
  | "Div" => some .div
  | "Mod" => some .mod
  | "Pow" => some .pow
  | "LShift" => some .lShift
  | "RShift" => some .rShift
  | "BitOr" => some .bitOr
  | "BitXor" => some .bitXor
  | "BitAnd" => some .bitAnd
  | "FloorDiv" => some .floorDiv
  | _ => none

def unaryOp? : String → Option UnaryOp
  | "Invert" => some .invert
  | "Not" => some .not
  | "UAdd" => some .plus
  | "USub" => some .minus
  | _ => none

def compareOp? : String → Option CompareOp
  | "Eq" => some .equal
  | "NotEq" => some .notEqual
  | "Lt" => some .less
  | "LtE" => some .atMost
  | "Gt" => some .greater
  | "GtE" => some .atLeast
  | "Is" => some .same
  | "IsNot" => some .notSame
  | "In" => some .isIn
  | "NotIn" => some .isNotIn
  | _ => none

/-- Pairs of hexadecimal digits. -/
def hexBytes? (s : String) : Option (List UInt8) :=
  let digit? (c : Char) : Option Nat :=
    if c.isDigit then some (c.toNat - '0'.toNat)
    else if 'a' ≤ c ∧ c ≤ 'f' then some (c.toNat - 'a'.toNat + 10)
    else if 'A' ≤ c ∧ c ≤ 'F' then some (c.toNat - 'A'.toNat + 10)
    else none
  let rec pairs? : List Char → Option (List UInt8)
    | [] => some []
    | a :: b :: rest => do
      let a ← digit? a
      let b ← digit? b
      return UInt8.ofNat (16 * a + b) :: (← pairs? rest)
    | [_] => none
  pairs? s.toList

/-- A literal is an object of one field, whose name tells what kind of value it is. -/
def literal? : Json → Option Literal
  | .object [("s", .text s)] => some (.text s)
  | .object [("i", .text digits)] => digits.toInt?.map .integer
  | .object [("f", .text s)] => some (.float s)
  | .object [("c", .text s)] => some (.imaginary s)
  | .object [("b", .text s)] => (hexBytes? s).map .bytes
  | .object [("k", .text "None")] => some .none
  | .object [("k", .text "True")] => some .true
  | .object [("k", .text "False")] => some .false
  | .object [("k", .text "Ellipsis")] => some .ellipsis
  | _ => none

def optionalName? : Json → Option (Option String)
  | .null => some none
  | .text s => some (some s)
  | _ => none

def names? (j : Json) : Option (List String) := do
  (← j.array?).mapM Json.text?

/-- The value of a field that holds no node. -/
def plainValue? (j : Json) : (s : Shape) → Option s.Value
  | .name => j.text?
  | .optionalName => optionalName? j
  | .names => names? j
  | .integer => j.integer?
  | .flag => j.integer?.map fun n => decide (n ≠ 0)
  | .literal => literal? j
  | .context => j.text?.bind context?
  | .booleanOp => j.text?.bind booleanOp?
  | .binaryOp => j.text?.bind binaryOp?
  | .unaryOp => j.text?.bind unaryOp?
  | .compareOps => (names? j).bind (·.mapM compareOp?)
  | .node | .optionalNode | .nodes | .optionalNodes => none

def optionalInteger? : Json → Option (Option Int)
  | .null => some none
  | .integer n => some (some n)
  | _ => none

def span? (line column endLine endColumn : Json) : Option Span := do
  return ⟨← line.integer?, ← column.integer?, ← optionalInteger? endLine,
    ← optionalInteger? endColumn⟩

mutual

/-- Reads a node and all below it. `next` is the first number that is free, before and after. -/
def readNode? (next : NodeId) : Json → Option (Node × NodeId)
  | .array (.text kind :: fields) => do
    let production ← production? kind
    if production.isPlaced then
      match fields with
      | line :: column :: endLine :: endColumn :: fields =>
        let span ← span? line column endLine endColumn
        let (form, after) ← readFields? (next + 1) _ production.build fields
        return (.mk next (some span) form, after)
      | _ => none
    else
      let (form, after) ← readFields? (next + 1) _ production.build fields
      return (.mk next none form, after)
  | _ => none
termination_by j => (sizeOf j, 0)

def readFields? (next : NodeId) (shapes : List Shape) (build : Builder shapes) :
    List Json → Option (Form Node × NodeId)
  | [] =>
    match shapes, build with
    | [], form => some (form, next)
    | _ :: _, _ => none
  | j :: rest =>
    match shapes, build with
    | [], _ => none
    | shape :: shapes, build => do
      let (value, next) ← readValue? next shape j
      readFields? next shapes (build value) rest
termination_by js => (sizeOf js, 0)

def readValue? (next : NodeId) (shape : Shape) (j : Json) : Option (shape.Value × NodeId) :=
  match shape, j with
  | .node, j => readNode? next j
  | .optionalNode, .null => some (none, next)
  | .optionalNode, j => (readNode? next j).map fun (n, next) => (some n, next)
  | .nodes, .array items => readNodes? next items
  | .optionalNodes, .array items => readOptionalNodes? next items
  | shape, j => (plainValue? j shape).map fun value => (value, next)
termination_by (sizeOf j, 1)

def readNodes? (next : NodeId) : List Json → Option (List Node × NodeId)
  | [] => some ([], next)
  | j :: rest => do
    let (n, next) ← readNode? next j
    let (ns, next) ← readNodes? next rest
    return (n :: ns, next)
termination_by js => (sizeOf js, 0)

def readOptionalNodes? (next : NodeId) : List Json → Option (List (Option Node) × NodeId)
  | [] => some ([], next)
  | .null :: rest => do
    let (ns, next) ← readOptionalNodes? next rest
    return (none :: ns, next)
  | j :: rest => do
    let (n, next) ← readNode? next j
    let (ns, next) ← readOptionalNodes? next rest
    return (some n :: ns, next)
termination_by js => (sizeOf js, 0)

end

def readTree? (j : Json) : Option Tree := do
  let (root, _) ← readNode? 0 j
  Tree.ofRoot? root

def parseErrorKind? : String → Option ParseErrorKind
  | "SyntaxError" => some .badSyntax
  | "IndentationError" => some .badIndentation
  | "TabError" => some .badTabs
  | "ValueError" => some .nulCharacter
  | _ => none

/-- A tree, or an object that says why there is none. -/
def readParsed? (j : Json) : Option Parsed :=
  match (j.field? "error").bind Json.text? with
  | some kind => do
    let kind ← parseErrorKind? kind
    let message ← (j.field? "msg").bind Json.text?
    return .error ⟨kind, message, (j.field? "lineno").bind Json.integer?⟩
  | none => (readTree? j).map .ok

/-- One step from a node towards a node below it. -/
inductive Step
  | field (name : String)
  | item (position : Nat)
  deriving DecidableEq

/-- The number that is free after reading the values of fields. -/
def skip? (next : NodeId) : List (Shape × Json) → Option NodeId
  | [] => some next
  | (shape, j) :: rest => do
    let (_, next) ← readValue? next shape j
    skip? next rest

/-- The number of the node at an address, counted from the number `next` of the node at which the
address starts. -/
def nodeIdFrom? (next : NodeId) (j : Json) : List Step → Option NodeId
  | [] => some next
  | .field name :: address => do
    let .array (.text kind :: fields) := j | none
    let production ← production? kind
    let fields := if production.isPlaced then fields.drop 4 else fields
    let index ← production.fields.findIdx? (·.1 = name)
    let shapes := production.fields.map (·.2)
    let next ← skip? (next + 1) ((shapes.zip fields).take index)
    let value ← fields[index]?
    match address with
    | .item position :: address =>
      let .array items := value | none
      let next ← skip? next ((items.take position).map fun item => (.optionalNode, item))
      nodeIdFrom? next (← items[position]?) address
    | address => nodeIdFrom? next value address
  | .item _ :: _ => none

def nodeIdAt? (j : Json) (address : List Step) : Option NodeId := nodeIdFrom? 0 j address

end LostUpdate.Encoding
