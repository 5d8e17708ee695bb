import LostUpdate.Syntax.Kind
import LostUpdate.Syntax.Render
import LostUpdate.Syntax.Tree

namespace LostUpdate

/-- Why a node cannot be written out. -/
inductive LayoutError
  /-- Match statements, what belongs to them, and `except*` are not laid out. -/
  | formless (kind : String)
  /-- A piece of a formatted string is neither text nor a field. -/
  | badPiece (kind : String)
  /-- A field of a formatted string stands outside of one. -/
  | looseField
  deriving DecidableEq, Repr

def LayoutError.message : LayoutError → String
  | formless kind => "'Unparser' object has no attribute '_" ++ kind ++ "'"
  | badPiece kind => "'Unparser' object has no attribute '_fstring_" ++ kind ++ "'"
  | looseField => "'FormattedValue' object has no attribute 'values'"

namespace Layout

def line (level : Nat) (s : String) : String :=
  String.ofList (List.replicate (4 * level) ' ') ++ s

def isBlank (c : Char) : Bool := c = ' ' || c = '\n'

/-- A text without the blanks and line breaks around it. -/
def trim (s : String) : String :=
  String.ofList ((s.toList.dropWhile isBlank).reverse.dropWhile isBlank).reverse

end Layout

namespace Node

open Layout Render

def aliasText (n : Node) : String :=
  match n.form with
  | .alias name (some other) => name ++ " as " ++ other
  | .alias name none => name
  | _ => ""

def itemText (n : Node) : String :=
  match n.form with
  | .withItem context target => context.render ++ optionalText " as " target
  | _ => ""

/-- The target of a declaration stands in parentheses if it is a name and was written so. -/
def declaredText (target : Node) (simple : Int) : String :=
  match target.form with
  | .name .. => if simple = 0 then parenthesized target.render else target.render
  | _ => target.render

def decoratorLines (level : Nat) (decorators : List Node) : List String :=
  "" :: decorators.map fun d => line level ("@" ++ d.render)

mutual

/-- The lines of a statement, as `astunparse.unparse` lays them out: a body stands four blanks further
in than its heading, and an empty line comes before a definition. -/
def lines (level : Nat) (n : Node) : List String :=
  match n with
  | .mk _ _ (.module body) | .mk _ _ (.interactive body) => body.flatMap (lines level)
  | .mk _ _ (.exprStmt value) => [line level value.render]
  | .mk _ _ (.importStmt names) =>
    [line level ("import " ++ commaSeparated (names.map aliasText))]
  | .mk _ _ (.importFrom module names depth) =>
    [line level ("from " ++ String.ofList (List.replicate depth.toNat '.') ++ module.getD "" ++
      " import " ++ commaSeparated (names.map aliasText))]
  | .mk _ _ (.assign targets value) =>
    [line level (String.join (targets.map fun t => t.render ++ " = ") ++ value.render)]
  | .mk _ _ (.augmented target op value) =>
    [line level (target.render ++ " " ++ op.text ++ "= " ++ value.render)]
  | .mk _ _ (.annotated target hint value simple) =>
    [line level (target.declaredText simple ++ ": " ++ hint.render ++ optionalText " = " value)]
  | .mk _ _ (.returnStmt value) => [line level ("return" ++ optionalText " " value)]
  | .mk _ _ .pass => [line level "pass"]
  | .mk _ _ .breakStmt => [line level "break"]
  | .mk _ _ .continueStmt => [line level "continue"]
  | .mk _ _ (.deleteStmt targets) => [line level ("del " ++ commaSeparated (targets.map render))]
  | .mk _ _ (.assertStmt test message) =>
    [line level ("assert " ++ test.render ++ optionalText ", " message)]
  | .mk _ _ (.globalDecl names) => [line level ("global " ++ commaSeparated names)]
  | .mk _ _ (.nonlocalDecl names) => [line level ("nonlocal " ++ commaSeparated names)]
  | .mk _ _ (.raiseStmt exception cause) =>
    [line level ("raise" ++ optionalText " " exception ++ optionalText " from " cause)]
  | .mk _ _ (.tryStmt _ body handlers orelse final) =>
    line level "try:" :: body.flatMap (lines (level + 1)) ++ handlers.flatMap (lines level) ++
      elseLines level orelse ++ finalLines level final
  | .mk _ _ (.handler exception name body) =>
    let binding := match name with
      | some x => " as " ++ x
      | none => ""
    line level ("except" ++ optionalText " " exception ++ binding ++ ":") ::
      body.flatMap (lines (level + 1))
  | .mk _ _ (.classDef name bases keywords body decorators) =>
    decoratorLines level decorators ++
      line level ("class " ++ name ++
        parenthesized (commaSeparated (bases.map render ++ keywords.map keywordText)) ++ ":") ::
      body.flatMap (lines (level + 1))
  | .mk _ _ (.function isAsync name parameters body decorators returns) =>
    decoratorLines level decorators ++
      line level ((if isAsync then "async def " else "def ") ++ name ++
        parenthesized parameters.parametersText ++ optionalText " -> " returns ++ ":") ::
      body.flatMap (lines (level + 1))
  | .mk _ _ (.forLoop isAsync target iterable body orelse) =>
    line level ((if isAsync then "async for " else "for ") ++ target.render ++ " in " ++
        iterable.render ++ ":") ::
      body.flatMap (lines (level + 1)) ++ elseLines level orelse
  | .mk _ _ (.ifStmt test body orelse) =>
    line level ("if " ++ test.render ++ ":") ::
      body.flatMap (lines (level + 1)) ++ branchLines level orelse
  | .mk _ _ (.whileLoop test body orelse) =>
    line level ("while " ++ test.render ++ ":") ::
      body.flatMap (lines (level + 1)) ++ elseLines level orelse
  | .mk _ _ (.withStmt isAsync items body) =>
    line level ((if isAsync then "async with " else "with ") ++
        commaSeparated (items.map itemText) ++ ":") ::
      body.flatMap (lines (level + 1))
  | _ => []
termination_by (sizeOf n, 1)

def elseLines (level : Nat) (orelse : List Node) : List String :=
  if orelse.isEmpty then [] else line level "else:" :: orelse.flatMap (lines (level + 1))
termination_by (sizeOf orelse, 0)

def finalLines (level : Nat) (final : List Node) : List String :=
  if final.isEmpty then [] else line level "finally:" :: final.flatMap (lines (level + 1))
termination_by (sizeOf final, 0)

/-- The other branch of a conditional statement. A lone conditional in it goes on with the first. -/
def branchLines (level : Nat) (orelse : List Node) : List String :=
  match orelse with
  | [.mk _ _ (.ifStmt test body orelse)] =>
    line level ("elif " ++ test.render ++ ":") ::
      body.flatMap (lines (level + 1)) ++ branchLines level orelse
  | orelse => elseLines level orelse
termination_by (sizeOf orelse, 1)

end

/-- Fields stand in formatted strings only. -/
def isField (n : Node) : Bool :=
  match n.form with
  | .formatted .. => true
  | _ => false

def pieceError? (n : Node) : Option LayoutError :=
  match n.form with
  | .constant .. | .formatted .. | .joined .. => none
  | _ => some (.badPiece n.kind)

/-- Why a node itself cannot be written out, whatever is below it. -/
def ownLayoutError? (n : Node) : Option LayoutError :=
  match n.form with
  | .matchStmt .. | .tryStmt true .. | .matchCase .. | .matchValue .. | .matchSingleton ..
  | .matchSequence .. | .matchMapping .. | .matchClass .. | .matchStar .. | .matchAs ..
  | .matchOr .. => some (.formless n.kind)
  | .joined values => values.findSome? pieceError?
  | .formatted value _ spec =>
    if value.isField then some .looseField else spec.bind pieceError?
  | _ => if n.children.any isField then some .looseField else none

/-- What first stands in the way of writing a node out. -/
def layoutError? (n : Node) : Option LayoutError :=
  if n.isField then some .looseField else n.preorder.findSome? ownLayoutError?

/-- The text of a node on its own, if it can be written out. -/
def written (n : Node) : String :=
  match n.form with
  | .expression body => body.render
  | .clause .. => trim n.clauseText
  | .parameterList _ => n.parametersText
  | .parameter .. => n.parameterText
  | .keyword .. => n.keywordText
  | .alias .. => n.aliasText
  | .withItem .. => n.itemText
  | _ => if n.form.isExpression then n.render else trim ("\n".intercalate (n.lines 0))

def text (n : Node) : Except LayoutError String :=
  match n.layoutError? with
  | some e => .error e
  | none => .ok n.written

end Node

end LostUpdate
