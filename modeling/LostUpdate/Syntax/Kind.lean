import LostUpdate.Syntax.Node

namespace LostUpdate

namespace Form

variable {α : Type}

def kind : Form α → String
  | .module .. => "Module"
  | .interactive .. => "Interactive"
  | .expression .. => "Expression"
  | .function isAsync .. => if isAsync then "AsyncFunctionDef" else "FunctionDef"
  | .classDef .. => "ClassDef"
  | .returnStmt .. => "Return"
  | .deleteStmt .. => "Delete"
  | .assign .. => "Assign"
  | .augmented .. => "AugAssign"
  | .annotated .. => "AnnAssign"
  | .forLoop isAsync .. => if isAsync then "AsyncFor" else "For"
  | .whileLoop .. => "While"
  | .ifStmt .. => "If"
  | .withStmt isAsync .. => if isAsync then "AsyncWith" else "With"
  | .matchStmt .. => "Match"
  | .raiseStmt .. => "Raise"
  | .tryStmt isStar .. => if isStar then "TryStar" else "Try"
  | .assertStmt .. => "Assert"
  | .importStmt .. => "Import"
  | .importFrom .. => "ImportFrom"
  | .globalDecl .. => "Global"
  | .nonlocalDecl .. => "Nonlocal"
  | .exprStmt .. => "Expr"
  | .pass => "Pass"
  | .breakStmt => "Break"
  | .continueStmt => "Continue"
  | .boolean .. => "BoolOp"
  | .walrus .. => "NamedExpr"
  | .binary .. => "BinOp"
  | .unary .. => "UnaryOp"
  | .lambda .. => "Lambda"
  | .conditional .. => "IfExp"
  | .dict .. => "Dict"
  | .set .. => "Set"
  | .comprehension .list .. => "ListComp"
  | .comprehension .set .. => "SetComp"
  | .comprehension .dict .. => "DictComp"
  | .comprehension .generator .. => "GeneratorExp"
  | .await .. => "Await"
  | .yield .. => "Yield"
  | .yieldFrom .. => "YieldFrom"
  | .compare .. => "Compare"
  | .call .. => "Call"
  | .formatted .. => "FormattedValue"
  | .joined .. => "JoinedStr"
  | .constant .. => "Constant"
  | .member .. => "Attribute"
  | .subscript .. => "Subscript"
  | .starred .. => "Starred"
  | .name .. => "Name"
  | .list .. => "List"
  | .tuple .. => "Tuple"
  | .slice .. => "Slice"
  | .clause .. => "comprehension"
  | .handler .. => "ExceptHandler"
  | .parameterList .. => "arguments"
  | .parameter .. => "arg"
  | .keyword .. => "keyword"
  | .alias .. => "alias"
  | .withItem .. => "withitem"
  | .matchCase .. => "match_case"
  | .matchValue .. => "MatchValue"
  | .matchSingleton .. => "MatchSingleton"
  | .matchSequence .. => "MatchSequence"
  | .matchMapping .. => "MatchMapping"
  | .matchClass .. => "MatchClass"
  | .matchStar .. => "MatchStar"
  | .matchAs .. => "MatchAs"
  | .matchOr .. => "MatchOr"

/-- Forms that have a value. -/
def isExpression : Form α → Bool
  | .boolean .. | .walrus .. | .binary .. | .unary .. | .lambda .. | .conditional .. | .dict ..
  | .set .. | .comprehension .. | .await .. | .yield .. | .yieldFrom .. | .compare .. | .call ..
  | .formatted .. | .joined .. | .constant .. | .member .. | .subscript .. | .starred ..
  | .name .. | .list .. | .tuple .. | .slice .. => true
  | _ => false

def isStatement : Form α → Bool
  | .function .. | .classDef .. | .returnStmt .. | .deleteStmt .. | .assign .. | .augmented ..
  | .annotated .. | .forLoop .. | .whileLoop .. | .ifStmt .. | .withStmt .. | .matchStmt ..
  | .raiseStmt .. | .tryStmt .. | .assertStmt .. | .importStmt .. | .importFrom ..
  | .globalDecl .. | .nonlocalDecl .. | .exprStmt .. | .pass | .breakStmt | .continueStmt => true
  | _ => false

/-- Definitions, lambdas and generator expressions: forms whose body runs on its own. -/
def isFunctionLike : Form α → Bool
  | .function .. | .lambda .. | .comprehension .generator .. => true
  | _ => false

/-- The name that a definition, handler, import or capture carries, where the form has a place for
one. -/
def ownName? : Form α → Option (Option String)
  | .function _ own .. | .classDef own .. | .alias own _ => some (some own)
  | .handler _ own _ | .matchStar own | .matchAs _ own => some own
  | _ => none

end Form

namespace Node

def kind (n : Node) : String := n.form.kind

def isFunctionLike (n : Node) : Bool := n.form.isFunctionLike

end Node

end LostUpdate
