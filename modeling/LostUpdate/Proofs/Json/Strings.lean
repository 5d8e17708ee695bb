import LostUpdate.Json.Reader
import Mathlib.Data.List.Basic

namespace LostUpdate

namespace Text

/-- A high surrogate and a low one behind it are taken for the character that they stand for. -/
def joinPairs : List Char → List Char
  | a :: b :: rest =>
    if isHighSurrogate (codePoint a) && isLowSurrogate (codePoint b) then
      pairedChar (codePoint a) (codePoint b) :: joinPairs rest
    else a :: joinPairs (b :: rest)
  | l => l

/-- A text as it is read back from its escapes. -/
def joined (s : String) : String := String.ofList (joinPairs s.toList)

/-- The numbers that escapes write for a character. -/
def units (c : Char) : List Nat :=
  if codePoint c < 0x10000 then [codePoint c]
  else [0xd800 + (codePoint c - 0x10000) / 0x400, 0xdc00 + (codePoint c - 0x10000) % 0x400]

theorem codePoint_cases (c : Char) :
    codePoint c = c.toNat ∧ isHighSurrogate c.toNat = false ∧ isLowSurrogate c.toNat = false ∨
      codePoint c + 0x100000 = c.toNat ∧
        (isHighSurrogate (codePoint c) = true ∨ isLowSurrogate (codePoint c) = true) := by
  have valid : c.toNat < 0xd800 ∨ 0xdfff < c.toNat ∧ c.toNat < 0x110000 := c.valid
  by_cases kept : 0x10d800 ≤ c.toNat ∧ c.toNat < 0x10e000
  · refine .inr ?_
    simp only [codePoint, if_pos kept, isHighSurrogate, isLowSurrogate, Bool.and_eq_true,
      decide_eq_true_eq]
    omega
  · refine .inl ⟨if_neg kept, ?_⟩
    simp only [isHighSurrogate, isLowSurrogate, Bool.and_eq_false_iff, decide_eq_false_iff_not]
    omega

theorem charOf_codePoint (c : Char) : charOf (codePoint c) = c := by
  unfold charOf
  rcases codePoint_cases c with ⟨same, high, low⟩ | ⟨kept, surrogate⟩
  · rw [same, high, low]
    exact Char.ofNat_toNat c
  · rw [if_pos (by simpa using surrogate), Nat.add_comm, kept]
    exact Char.ofNat_toNat c

end Text

namespace Json

open Text

theorem joinUnits_of_not_high {n : Nat} (h : isHighSurrogate n = false) (l : List Nat) :
    joinUnits (n :: l) = charOf n :: joinUnits l := by
  cases l <;> simp [joinUnits, h]

theorem joinUnits_of_not_low {n m : Nat} (h : isLowSurrogate m = false) (l : List Nat) :
    joinUnits (n :: m :: l) = charOf n :: joinUnits (m :: l) := by
  simp [joinUnits, h]

/-- A character beyond the first 65536 is that of its pair. -/
theorem joinUnits_pair {c : Char} (h : ¬ codePoint c < 0x10000) (l : List Nat) :
    joinUnits (units c ++ l) = c :: joinUnits l := by
  have valid : c.toNat < 0xd800 ∨ 0xdfff < c.toNat ∧ c.toNat < 0x110000 := c.valid
  rcases codePoint_cases c with ⟨same, -⟩ | ⟨kept, -⟩
  · rw [same] at h
    have high : isHighSurrogate (0xd800 + (c.toNat - 0x10000) / 0x400) = true := by
      simp only [isHighSurrogate, Bool.and_eq_true, decide_eq_true_eq]
      omega
    have low : isLowSurrogate (0xdc00 + (c.toNat - 0x10000) % 0x400) = true := by
      simp only [isLowSurrogate, Bool.and_eq_true, decide_eq_true_eq]
      omega
    have whole : 0x10000 + (0xd800 + (c.toNat - 0x10000) / 0x400 - 0xd800) * 0x400 +
        (0xdc00 + (c.toNat - 0x10000) % 0x400 - 0xdc00) = c.toNat := by omega
    simp only [units, same, if_neg h, List.cons_append, List.nil_append, joinUnits, high, low,
      Bool.and_self, if_true, pairedChar, whole, Char.ofNat_toNat]
  · omega

/-- The first unit of a character is a low surrogate only if the character is. -/
theorem exists_units {c : Char} (h : isLowSurrogate (codePoint c) = false) :
    ∃ n l, units c = n :: l ∧ isLowSurrogate n = false := by
  have valid : c.toNat < 0xd800 ∨ 0xdfff < c.toNat ∧ c.toNat < 0x110000 := c.valid
  unfold units
  split_ifs with small
  · exact ⟨_, _, rfl, h⟩
  · refine ⟨_, _, rfl, ?_⟩
    have bound : codePoint c ≤ c.toNat := by unfold codePoint; split_ifs <;> omega
    simp only [isLowSurrogate, Bool.and_eq_false_iff, decide_eq_false_iff_not]
    omega

/-- The units of a text are those of its characters, pairs of surrogates joined. -/
theorem joinUnits_units (cs : List Char) : joinUnits (cs.flatMap units) = joinPairs cs := by
  fun_induction joinPairs cs with
  | case1 a b rest paired ih =>
    simp only [Bool.and_eq_true] at paired
    have small {c : Char} (h : isHighSurrogate (codePoint c) = true ∨
        isLowSurrogate (codePoint c) = true) : units c = [codePoint c] := by
      simp only [isHighSurrogate, isLowSurrogate, Bool.and_eq_true, decide_eq_true_eq] at h
      rw [units, if_pos (by omega)]
    rw [List.flatMap_cons, List.flatMap_cons, small (.inl paired.1), small (.inr paired.2)]
    simp [joinUnits, paired, ih]
  | case2 a b rest paired ih =>
    rw [List.flatMap_cons, ← ih]
    by_cases small : codePoint a < 0x10000
    · rw [units, if_pos small, List.singleton_append]
      by_cases high : isHighSurrogate (codePoint a) = true
      · have low : isLowSurrogate (codePoint b) = false := by simpa [high] using paired
        obtain ⟨n, l, hunits, hn⟩ := exists_units low
        rw [List.flatMap_cons, hunits, List.cons_append, joinUnits_of_not_low hn,
          charOf_codePoint]
      · rw [joinUnits_of_not_high (by simpa using high), charOf_codePoint]
    · exact joinUnits_pair small _
  | case3 l short =>
    match l with
    | [] => rfl
    | [c] =>
      by_cases small : codePoint c < 0x10000
      · simp [units, small, joinUnits, charOf_codePoint]
      · simpa [joinUnits] using joinUnits_pair small []
    | a :: b :: rest => exact absurd rfl (short a b rest)

theorem hexValue?_digitChar {d : Nat} (h : d < 16) : hexValue? d.digitChar = some d := by
  have all : ∀ d, d < 16 → hexValue? d.digitChar = some d := by decide
  exact all d h

/-- Four digits are written for a number of one unit. -/
theorem toList_hex {n : Nat} (h : n < 0x10000) : (hex 4 n).toList =
    [(n / 0x1000).digitChar, (n / 0x100 % 16).digitChar, (n / 16 % 16).digitChar,
      (n % 16).digitChar] := by
  have digits (m : Nat) (hm : 16 ≤ m) := Nat.toDigits_of_base_le (b := 16) (by decide) hm
  have digit (m : Nat) (hm : m < 16) := Nat.toDigits_of_lt_base (b := 16) hm
  unfold hex
  rcases Nat.lt_or_ge n 16 with h1 | h1
  · rw [digit n h1, show n / 0x1000 = 0 by omega, show n / 0x100 % 16 = 0 by omega,
      show n / 16 % 16 = 0 by omega, Nat.mod_eq_of_lt h1]
    simp
  · rcases Nat.lt_or_ge n 0x100 with h2 | h2
    · rw [digits n h1, digit (n / 16) (by omega), show n / 0x1000 = 0 by omega,
        show n / 0x100 % 16 = 0 by omega, show n / 16 % 16 = n / 16 by omega]
      simp
    · rcases Nat.lt_or_ge n 0x1000 with h3 | h3
      · rw [digits n h1, digits (n / 16) (by omega), digit (n / 16 / 16) (by omega),
          show n / 0x1000 = 0 by omega, show n / 0x100 % 16 = n / 16 / 16 by omega]
        simp
      · rw [digits n h1, digits (n / 16) (by omega), digits (n / 16 / 16) (by omega),
          digit (n / 16 / 16 / 16) (by omega), show n / 0x1000 = n / 16 / 16 / 16 by omega,
          show n / 0x100 = n / 16 / 16 by omega]
        simp

theorem unit?_hex {n : Nat} (h : n < 0x10000) :
    unit? (n / 0x1000).digitChar (n / 0x100 % 16).digitChar (n / 16 % 16).digitChar
      (n % 16).digitChar = some n := by
  rw [unit?, hexValue?_digitChar (show n / 0x1000 < 16 by omega),
    hexValue?_digitChar (Nat.mod_lt _ (by decide)), hexValue?_digitChar (Nat.mod_lt _ (by decide)),
    hexValue?_digitChar (Nat.mod_lt _ (by decide))]
  simp only [Option.bind_eq_bind, Option.bind_some, Option.pure_def, Option.some.injEq]
  omega

theorem readUnits?_hex {n : Nat} (h : n < 0x10000) (done : List Nat) (rest : List Char) :
    readUnits? done ("\\u".toList ++ (hex 4 n).toList ++ rest) = readUnits? (n :: done) rest := by
  rw [toList_hex h]
  change readUnits? done ('\\' :: 'u' :: _ :: _ :: _ :: _ :: rest) = _
  rw [readUnits?, unit?_hex h]

theorem readUnits?_plain {c : Char} (quote : c ≠ '"') (escape : c ≠ '\\') (visible : ' ' ≤ c)
    (done : List Nat) (rest : List Char) :
    readUnits? done (c :: rest) = readUnits? (c.toNat :: done) rest := by
  have seen : ¬ c < ' ' := Char.not_lt.2 visible
  rw [readUnits?.eq_def]
  split
  case h_4 =>
    rename_i same
    obtain ⟨rfl, rfl⟩ := List.cons.inj same
    exact if_neg seen
  all_goals simp_all

/-- What is written for a character is read as its units. -/
theorem readUnits?_escape (c : Char) (done : List Nat) (rest : List Char) :
    readUnits? done ((escape c).toList ++ rest) = readUnits? ((units c).reverse ++ done) rest := by
  unfold escape
  split
  case h_8 _ quote slash _ _ _ _ _ =>
    split_ifs with shown
    · have small : c.toNat ≤ 126 := shown.2
      have same : codePoint c = c.toNat := if_neg (by omega)
      have single : units c = [c.toNat] := by rw [units, same, if_pos (by omega)]
      rw [single]
      rw [show c.toString.toList = [c] by simp]
      exact readUnits?_plain quote slash shown.1 done rest
    · unfold unicodeEscape
      dsimp only
      split_ifs with small
      · rw [units, if_pos small, String.toList_append]
        exact readUnits?_hex small done rest
      · have valid : c.toNat < 0xd800 ∨ 0xdfff < c.toNat ∧ c.toNat < 0x110000 := c.valid
        have bound : codePoint c ≤ c.toNat := by unfold codePoint; split_ifs <;> omega
        rw [units, if_neg small]
        simp only [String.toList_append, List.append_assoc]
        have first := readUnits?_hex (n := 0xd800 + (codePoint c - 0x10000) / 0x400) (by omega) done
        have second := readUnits?_hex (n := 0xdc00 + (codePoint c - 0x10000) % 0x400) (by omega)
        simp only [List.append_assoc] at first second
        rw [first, second]
        rfl
  all_goals simp [readUnits?, shortEscape?, units, codePoint]

/-- A text in quotes is read back. -/
theorem readText?_quoted (s : String) (rest : List Char) :
    readText? (s.toList.flatMap (fun c => (escape c).toList) ++ '"' :: rest) =
      some (joined s, rest) := by
  have all (cs : List Char) (done : List Nat) :
      readUnits? done (cs.flatMap (fun c => (escape c).toList) ++ '"' :: rest) =
        some (done.reverse ++ cs.flatMap units, rest) := by
    induction cs generalizing done with
    | nil => simp [readUnits?]
    | cons c cs ih =>
      rw [List.flatMap_cons, List.append_assoc, readUnits?_escape, ih]
      simp
  rw [readText?, all]
  simp [joinUnits_units, joined]

theorem toList_quote (s : String) :
    (quote s).toList = '"' :: (s.toList.flatMap (fun c => (escape c).toList) ++ ['"']) := by
  have all (cs : List Char) (out : String) :
      (cs.foldl (fun out c => out ++ escape c) out).toList =
        out.toList ++ cs.flatMap fun c => (escape c).toList := by
    induction cs generalizing out with
    | nil => simp
    | cons c cs ih =>
      rw [List.foldl_cons, ih]
      simp
  rw [quote, String.toList_append, String.foldl_eq_foldl_toList, all]
  rfl

end Json

end LostUpdate
