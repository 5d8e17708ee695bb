import LostUpdate.Text.Surrogate

namespace LostUpdate

inductive Json
  | null
  | bool (b : Bool)
  | integer (n : Int)
  /-- The number `units / 10 ^ places`. -/
  | decimal (units : Int) (places : Nat)
  | text (s : String)
  | array (items : List Json)
  | object (fields : List (String × Json))

namespace Json

/-- The lower-case hexadecimal digits of `n`, at least `width` of them. -/
def hex (width n : Nat) : String :=
  let digits := Nat.toDigits 16 n
  String.ofList (List.replicate (width - digits.length) '0' ++ digits)

/-- A code point above `0xffff` becomes a pair of surrogates. -/
def unicodeEscape (c : Char) : String :=
  let n := Text.codePoint c
  if n < 0x10000 then "\\u" ++ hex 4 n
  else
    let m := n - 0x10000
    "\\u" ++ hex 4 (0xd800 + m / 0x400) ++ "\\u" ++ hex 4 (0xdc00 + m % 0x400)

def escape (c : Char) : String :=
  match c with
  | '"' => "\\\""
  | '\\' => "\\\\"
  | '\n' => "\\n"
  | '\r' => "\\r"
  | '\t' => "\\t"
  | '\x08' => "\\b"
  | '\x0c' => "\\f"
  | c => if ' ' ≤ c ∧ c ≤ '~' then c.toString else unicodeEscape c

def quote (s : String) : String :=
  s.foldl (fun out c => out ++ escape c) "\"" ++ "\""

/-- All places are written, so `decimal 0 1` is `0.0`. -/
def decimalText (units : Int) (places : Nat) : String :=
  let digits := Nat.toDigits 10 units.natAbs
  let padded := List.replicate (places + 1 - digits.length) '0' ++ digits
  let whole := padded.length - places
  let fraction := padded.drop whole
  (if units < 0 then "-" else "") ++ String.ofList (padded.take whole) ++
    (if fraction.isEmpty then "" else "." ++ String.ofList fraction)

def atomText : Json → String
  | bool true => "true"
  | bool false => "false"
  | integer n => toString n
  | decimal units places => decimalText units places
  | text s => quote s
  | _ => "null"

mutual

def compact : Json → String
  | array items => "[" ++ ",".intercalate (compactItems items) ++ "]"
  | object fields => "\x7b" ++ ",".intercalate (compactFields fields) ++ "\x7d"
  | j => atomText j

def compactItems : List Json → List String
  | [] => []
  | j :: rest => j.compact :: compactItems rest

def compactFields : List (String × Json) → List String
  | [] => []
  | (name, j) :: rest => (quote name ++ ":" ++ j.compact) :: compactFields rest

end

/-- A line break followed by the indentation of `level`. -/
def newline (level : Nat) : String :=
  String.ofList ('\n' :: List.replicate (2 * level) ' ')

mutual

/-- The text of a value that stands at indentation `level`. -/
def prettyAt (level : Nat) : Json → String
  | array [] => "[]"
  | array items =>
    "[" ++ newline (level + 1) ++
      ("," ++ newline (level + 1)).intercalate (prettyItems (level + 1) items) ++
      newline level ++ "]"
  | object [] => "\x7b\x7d"
  | object fields =>
    "\x7b" ++ newline (level + 1) ++
      ("," ++ newline (level + 1)).intercalate (prettyFields (level + 1) fields) ++
      newline level ++ "\x7d"
  | j => atomText j

def prettyItems (level : Nat) : List Json → List String
  | [] => []
  | j :: rest => j.prettyAt level :: prettyItems level rest

def prettyFields (level : Nat) : List (String × Json) → List String
  | [] => []
  | (name, j) :: rest => (quote name ++ ": " ++ j.prettyAt level) :: prettyFields level rest

end

/-- On lines of its own for each part, two blanks further in a level, and in ASCII only. -/
def pretty (j : Json) : String := j.prettyAt 0

/-- The value of a field; the last one counts if a name is repeated. -/
def field? (name : String) : Json → Option Json
  | object fields => (fields.findRev? (·.1 = name)).map (·.2)
  | _ => none

def text? : Json → Option String
  | text s => some s
  | _ => none

def integer? : Json → Option Int
  | integer n => some n
  | _ => none

def bool? : Json → Option Bool
  | bool b => some b
  | _ => none

def array? : Json → Option (List Json)
  | array items => some items
  | _ => none

def object? : Json → Option (List (String × Json))
  | object fields => some fields
  | _ => none

end Json

end LostUpdate
