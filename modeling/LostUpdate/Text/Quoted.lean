import LostUpdate.Json.Basic
import LostUpdate.Text.Printable

namespace LostUpdate.Text

private def escapeCode (n : Nat) : String :=
  if n < 0x100 then "\\x" ++ Json.hex 2 n
  else if n < 0x10000 then "\\u" ++ Json.hex 4 n
  else "\\U" ++ Json.hex 8 n

/-- Escapes that are the same for text and for bytes. -/
private def escapeCommon (quote c : Char) (other : Char → String) : String :=
  if c = quote ∨ c = '\\' then "\\" ++ c.toString
  else match c with
    | '\n' => "\\n"
    | '\r' => "\\r"
    | '\t' => "\\t"
    | c => other c

private def quoteFor (cs : List Char) : Char :=
  if '\'' ∈ cs ∧ '"' ∉ cs then '"' else '\''

private def enclose (cs : List Char) (other : Char → String) : String :=
  let quote := quoteFor cs
  cs.foldl (fun out c => out ++ escapeCommon quote c other) quote.toString ++ quote.toString

/-- Text in single quotes, or in double ones if it holds single quotes only. -/
def quoted (s : String) : String :=
  enclose s.toList fun c => if isPrintable c then c.toString else escapeCode (codePoint c)

def quotedBytes (bs : List UInt8) : String :=
  "b" ++ enclose (bs.map fun b => Char.ofNat b.toNat) fun c =>
    if ' ' ≤ c ∧ c ≤ '~' then c.toString else escapeCode c.toNat

end LostUpdate.Text
