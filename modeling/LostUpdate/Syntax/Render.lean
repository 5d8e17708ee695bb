import LostUpdate.Syntax.Node
import LostUpdate.Text.Quoted

namespace LostUpdate

def BooleanOp.text : BooleanOp → String
  | and => "and"
  | or => "or"

def BinaryOp.text : BinaryOp → String
  | add => "+"
  | sub => "-"
  | mult => "*"
  | matMult => "@"
  | div => "/"
  | mod => "%"
  | pow => "**"
  | lShift => "<<"
  | rShift => ">>"
  | bitOr => "|"
  | bitXor => "^"
  | bitAnd => "&"
  | floorDiv => "//"

def UnaryOp.text : UnaryOp → String
  | invert => "~"
  | not => "not"
  | plus => "+"
  | minus => "-"

def CompareOp.text : CompareOp → String
  | equal => "=="
  | notEqual => "!="
  | less => "<"
  | atMost => "<="
  | greater => ">"
  | atLeast => ">="
  | same => "is"
  | notSame => "is not"
  | isIn => "in"
  | isNotIn => "not in"

namespace Literal

/-- An infinite number is written as one that is too large. -/
private def finiteText (s : String) : String := s.replace "inf" "1e309"

def spelling : Literal → String
  | .text s => Text.quoted s
  | integer n => toString n
  | float s | imaginary s => finiteText s
  | bytes bs => Text.quotedBytes bs
  | none => "None"
  | true => "True"
  | false => "False"
  | ellipsis => "..."

/-- A dot after such a literal would be read as part of it; the truth values count as numbers. -/
def isNumeral : Literal → Bool
  | integer _ | .true | .false => Bool.true
  | _ => Bool.false

end Literal

namespace Render

def commaSeparated (parts : List String) : String := ", ".intercalate parts

def parenthesized (s : String) : String := "(" ++ s ++ ")"

/-- Braces of a text that stands in a formatted string are doubled. -/
def doubleBraces (s : String) : String :=
  s.foldl (fun out c => if c = '\x7b' ∨ c = '\x7d' then (out.push c).push c else out.push c) ""

/-- Whether `s` stands somewhere in `t`. -/
def occursIn (s t : String) : Bool := (t.splitOn s).length > 1

/-- A formatted string is put in the first quotes that do not occur in it. -/
def formattedString (v : String) : String :=
  let quotes :=
    if v.any fun c => c = '\n' || c = '\r' then ["'''", "\"\"\""]
    else ["'", "\"", "\"\"\"", "'''"]
  match quotes.find? fun q => !occursIn q v with
  | some q => "f" ++ q ++ v ++ q
  | none => "f" ++ Text.quoted v

/-- The code point of a conversion such as `!r`; -1 stands for none. -/
def conversionText (conversion : Int) : String :=
  if conversion = -1 then "" else "!" ++ (Char.ofNat conversion.toNat).toString

/-- Pairs each of the names with the default at its place; defaults belong to the last names. -/
def withDefaults (names defaults : List String) : List String :=
  let plain := names.length - defaults.length
  names.take plain ++ List.zipWith (fun name d => name ++ "=" ++ d) (names.drop plain) defaults

/-- The text after the `k`-th of the parameters, counted from one, marks it as the last that is
positional only. -/
def markPositionalOnly (k : Nat) (parameters : List String) : List String :=
  parameters.zipIdx.map fun (p, i) => if i + 1 = k then p ++ ", /" else p

/-- The pieces of a formatted string. -/
def field (value conversion : String) (spec : Option String) : String :=
  "\x7b" ++ (if value.startsWith "\x7b" then " " else "") ++ value ++ conversion ++
    (match spec with
    | some s => ":" ++ s
    | none => "") ++ "\x7d"

end Render

namespace Node

open Render

mutual

/-- The text of an expression, as `astunparse.unparse` writes it: operators stand in parentheses
together with their operands. -/
def render (n : Node) : String :=
  match n with
  | .mk _ _ (.name x _) => x
  | .mk _ _ (.constant value kind) => (if kind = some "u" then "u" else "") ++ value.spelling
  | .mk _ _ (.member value attr _) =>
    let dot := match value.form with
      | .constant v _ => if v.isNumeral then " ." else "."
      | _ => "."
    value.render ++ dot ++ attr
  | .mk _ _ (.subscript value index _) => value.render ++ "[" ++ index.render ++ "]"
  | .mk _ _ (.starred value _) => "*" ++ value.render
  | .mk _ _ (.slice lower upper step) =>
    optionalText "" lower ++ ":" ++ optionalText "" upper ++ optionalText ":" step
  | .mk _ _ (.tuple [x] _) => "(" ++ x.render ++ ",)"
  | .mk _ _ (.tuple elements _) => parenthesized (commaSeparated (elements.map render))
  | .mk _ _ (.list elements _) => "[" ++ commaSeparated (elements.map render) ++ "]"
  | .mk _ _ (.set elements) => "\x7b" ++ commaSeparated (elements.map render) ++ "\x7d"
  | .mk _ _ (.dict keys values) =>
    "\x7b" ++ commaSeparated (List.zipWith (fun key value => key ++ value)
      (keys.map keyText) (values.map render)) ++ "\x7d"
  | .mk _ _ (.call callee arguments keywords) =>
    callee.render ++ parenthesized (commaSeparated (arguments.map render ++ keywords.map keywordText))
  | .mk _ _ (.walrus target value) => parenthesized (target.render ++ " := " ++ value.render)
  | .mk _ _ (.await value) => "(await " ++ value.render ++ ")"
  | .mk _ _ (.yield value) => "(yield" ++ optionalText " " value ++ ")"
  | .mk _ _ (.yieldFrom value) => "(yield from " ++ value.render ++ ")"
  | .mk _ _ (.conditional test body orelse) =>
    parenthesized (body.render ++ " if " ++ test.render ++ " else " ++ orelse.render)
  | .mk _ _ (.unary op operand) => parenthesized (op.text ++ " " ++ operand.render)
  | .mk _ _ (.binary left op right) =>
    parenthesized (left.render ++ " " ++ op.text ++ " " ++ right.render)
  | .mk _ _ (.compare left ops comparators) =>
    parenthesized (left.render ++ String.join
      (List.zipWith (fun op right => " " ++ CompareOp.text op ++ " " ++ right) ops
        (comparators.map render)))
  | .mk _ _ (.boolean op values) =>
    parenthesized ((" " ++ op.text ++ " ").intercalate (values.map render))
  | .mk _ _ (.lambda parameters body) =>
    "(lambda " ++ parameters.parametersText ++ ": " ++ body.render ++ ")"
  | .mk _ _ (.comprehension collector elements clauses) =>
    let inside := ": ".intercalate (elements.map render) ++ String.join (clauses.map clauseText)
    match collector with
    | .list => "[" ++ inside ++ "]"
    | .set | .dict => "\x7b" ++ inside ++ "\x7d"
    | .generator => parenthesized inside
  | .mk _ _ (.joined values) => formattedString (String.join (values.map pieceText))
  | _ => ""
termination_by (sizeOf n, 1)

def optionalText (before : String) (n : Option Node) : String :=
  match n with
  | some n => before ++ n.render
  | none => ""
termination_by (sizeOf n, 0)

def keyText (key : Option Node) : String :=
  match key with
  | some n => n.render ++ ": "
  | none => "**"
termination_by (sizeOf key, 0)

def keywordText (n : Node) : String :=
  match n with
  | .mk _ _ (.keyword (some name) value) => name ++ "=" ++ value.render
  | .mk _ _ (.keyword none value) => "**" ++ value.render
  | _ => ""
termination_by (sizeOf n, 0)

def clauseText (n : Node) : String :=
  match n with
  | .mk _ _ (.clause target iterable conditions isAsync) =>
    (if isAsync then " async for " else " for ") ++ target.render ++ " in " ++ iterable.render ++
      String.join ((conditions.map render).map (" if " ++ ·))
  | _ => ""
termination_by (sizeOf n, 0)

def parameterText (n : Node) : String :=
  match n with
  | .mk _ _ (.parameter name hint) => name ++ optionalText ": " hint
  | _ => ""
termination_by (sizeOf n, 0)

def parametersText (n : Node) : String :=
  match n with
  | .mk _ _ (.parameterList
      ⟨positionalOnly, positional, variadic, keywordOnly, keywordDefaults, keywordVariadic,
        defaults⟩) =>
    let named := withDefaults (positionalOnly.map parameterText ++ positional.map parameterText)
      (defaults.map render)
    let rest := (match variadic with
      | some p => ["*" ++ p.parameterText]
      | none => if keywordOnly.isEmpty then [] else ["*"])
    let keywords := List.zipWith (· ++ ·) (keywordOnly.map parameterText)
      (keywordDefaults.map (optionalText "="))
    let last := (match keywordVariadic with
      | some p => ["**" ++ p.parameterText]
      | none => [])
    commaSeparated (markPositionalOnly positionalOnly.length named ++ rest ++ keywords ++ last)
  | _ => ""
termination_by (sizeOf n, 0)

/-- A piece of a formatted string. A format specification is a formatted string without quotes. -/
def pieceText (n : Node) : String :=
  match n with
  | .mk _ _ (.constant (.text s) _) => doubleBraces s
  | .mk _ _ (.formatted value conversion spec) =>
    field value.render (conversionText conversion) (match spec with
      | some s => some s.pieceText
      | none => none)
  | .mk _ _ (.joined values) => String.join (values.map pieceText)
  | _ => ""
termination_by (sizeOf n, 0)

end

end Node

end LostUpdate
