namespace LostUpdate.Text

def isHighSurrogate (n : Nat) : Bool := 0xd800 ≤ n && n < 0xdc00

def isLowSurrogate (n : Nat) : Bool := 0xdc00 ≤ n && n < 0xe000

/-- The character that a pair of surrogates stands for. -/
def pairedChar (high low : Nat) : Char :=
  Char.ofNat (0x10000 + (high - 0xd800) * 0x400 + (low - 0xdc00))

/-- The character of a code point. A lone surrogate is none and is kept as the private-use character
that stands `0x100000` above it. -/
def charOf (n : Nat) : Char :=
  Char.ofNat (if isHighSurrogate n || isLowSurrogate n then 0x100000 + n else n)

/-- The code point that a character is kept for. -/
def codePoint (c : Char) : Nat :=
  if 0x10d800 ≤ c.toNat ∧ c.toNat < 0x10e000 then c.toNat - 0x100000 else c.toNat

example : codePoint (charOf 0xd83c) = 0xd83c ∧ codePoint (charOf 0xdfff) = 0xdfff := by decide

end LostUpdate.Text
