import LostUpdate.Json.Basic

namespace LostUpdate.Text

/-- Why the bytes between two places are no text. -/
inductive CutError
  /-- The first byte belongs to a character that starts before it. -/
  | startsInside (byte : UInt8)
  /-- Only `bytes` are left of the character at `position`, which ends behind them. -/
  | endsInside (position : Nat) (bytes : List UInt8)
  deriving DecidableEq, Repr

def CutError.message : CutError → String
  | startsInside byte =>
    "'utf-8' codec can't decode byte 0x" ++ Json.hex 2 byte.toNat ++
      " in position 0: invalid start byte"
  | endsInside position bytes =>
    let bytesText := match bytes with
      | [b] => "byte 0x" ++ Json.hex 2 b.toNat ++ " in position " ++ toString position
      | bs => "bytes in position " ++ toString position ++ "-" ++
          toString (position + bs.length - 1)
    "'utf-8' codec can't decode " ++ bytesText ++ ": unexpected end of data"

/-- The place that a number means among `n` things: at most `n`, and from the end if negative. -/
def place (n : Nat) (i : Int) : Nat := if i < 0 then (n + i).toNat else min i.toNat n

/-- The thing that a number means, from the end if it is negative. -/
def item? {α : Type} (l : List α) (i : Int) : Option α :=
  if 0 ≤ i then l[i.toNat]? else if (-i).toNat ≤ l.length then l[place l.length i]? else none

/-- The things from one place to another. -/
def slice {α : Type} (l : List α) (first last : Int) : List α :=
  (l.take (place l.length last)).drop (place l.length first)

/-- Whether a byte belongs to a character without starting it. -/
def isInnerByte (b : UInt8) : Bool := 0x80 ≤ b && b < 0xc0

/-- The bytes of a text from one place to another, as text. -/
def cut (s : String) (first last : Int) : Except CutError String :=
  let bytes := s.toUTF8
  let piece := bytes.extract (place bytes.size first) (place bytes.size last)
  match String.fromUTF8? piece with
  | some text => .ok text
  | none =>
    let bs := piece.toList
    match bs.head? with
    | some b =>
      if isInnerByte b then .error (.startsInside b)
      else
        let position := bs.length - (bs.reverse.takeWhile isInnerByte).length - 1
        .error (.endsInside position (bs.drop position))
    | none => .ok ""

end LostUpdate.Text
