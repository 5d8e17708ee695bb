import LostUpdate.Files.Workspace
import Mathlib.Data.List.TakeWhile
import Mathlib.Tactic.Ring

namespace LostUpdate

namespace Path

/-- The suffix of a path: from the last dot of its name on, unless the dot is the first character or
the last one. -/
def EndsIn (p : Path) (suffix : String) : Prop :=
  (∃ stem ending, (p.parts.getLast?.getD "").toList = stem ++ '.' :: ending ∧ '.' ∉ ending ∧
    stem ≠ [] ∧ ending ≠ [] ∧ suffix = String.ofList ('.' :: ending)) ∨
  (∀ stem ending, (p.parts.getLast?.getD "").toList = stem ++ '.' :: ending → '.' ∉ ending →
    stem = [] ∨ ending = []) ∧ suffix = ""

variable {p : Path} {stem ending : List Char}

theorem suffix_of_dot (h : p.name.toList = stem ++ '.' :: ending) (plain : '.' ∉ ending) :
    p.suffix = if ending = [] ∨ stem = [] then "" else String.ofList ('.' :: ending) := by
  have inner : ∀ c ∈ ending.reverse, decide (c ≠ '.') = true := by
    intro c hc
    have : c ≠ '.' := fun same => plain (same ▸ List.mem_reverse.1 hc)
    simpa using this
  have reversed : p.name.toList.reverse = ending.reverse ++ '.' :: stem.reverse := by simp [h]
  unfold suffix
  dsimp only
  rw [reversed, List.takeWhile_append_of_pos inner, List.dropWhile_append_of_pos inner]
  simp

theorem suffix_of_no_dot (h : '.' ∉ p.name.toList) : p.suffix = "" := by
  have all : ∀ c ∈ p.name.toList.reverse, decide (c ≠ '.') = true := by
    intro c hc
    have : c ≠ '.' := fun same => h (same ▸ List.mem_reverse.1 hc)
    simpa using this
  unfold suffix
  dsimp only
  rw [List.dropWhile_eq_nil_iff.2 all]
  simp

theorem endsIn_suffix (p : Path) : p.EndsIn p.suffix := by
  by_cases dot : '.' ∈ p.name.toList
  · obtain ⟨before, after, hcut, plain⟩ := List.eq_append_cons_of_mem (List.mem_reverse.2 dot)
    have cut : p.name.toList = after.reverse ++ '.' :: before.reverse := by
      simpa using congrArg List.reverse hcut
    have last : '.' ∉ before.reverse := by simpa using plain
    by_cases real : before.reverse = [] ∨ after.reverse = []
    · refine .inr ⟨fun stem ending h inner => ?_, ?_⟩
      · have same := suffix_of_dot h inner
        rw [suffix_of_dot cut last, if_pos real] at same
        split_ifs at same with none
        · exact none.symm
        · simp at same
      · rw [suffix_of_dot cut last, if_pos real]
    · obtain ⟨some, stemmed⟩ := not_or.1 real
      exact .inl ⟨_, _, cut, last, stemmed, some, by rw [suffix_of_dot cut last, if_neg real]⟩
  · refine .inr ⟨fun stem ending h => absurd ?_ dot, suffix_of_no_dot dot⟩
    rw [name, h]
    simp

/-- The warnings about the name of a program file. -/
def NameWarned (p : Path) (warnings : List String) : Prop :=
  ∃ suffix, p.EndsIn suffix ∧ warnings =
    if suffix.map (·.toLower) ∈ [".py", ".pyw", ".pyi"] then []
    else ["Unusual file extension '" ++ suffix ++ "' for Python file"]

theorem nameWarned_suffixWarnings (p : Path) : p.NameWarned (suffixWarnings p) :=
  ⟨p.suffix, p.endsIn_suffix, rfl⟩

end Path

/-- The number of tenths next to a quotient; from the middle, the even one. -/
def NearestTenths (n d tenths : Nat) : Prop :=
  20 * n ≤ (2 * tenths + 1) * d ∧ 2 * tenths * d ≤ 20 * n + d ∧
    (20 * n = (2 * tenths + 1) * d ∨ 2 * tenths * d = 20 * n + d → tenths % 2 = 0)

theorem nearestTenths_roundedQuotient (n : Nat) {d : Nat} (hd : 0 < d) :
    NearestTenths n d (roundedQuotient (10 * n) d) := by
  have whole := Nat.div_add_mod (10 * n) d
  have rest := Nat.mod_lt (10 * n) hd
  unfold NearestTenths roundedQuotient
  dsimp only
  generalize 10 * n / d = q at whole
  generalize 10 * n % d = r at whole rest
  have below : (2 * q + 1) * d = 2 * (d * q) + d := by ring
  have same : 2 * q * d = 2 * (d * q) := by ring
  have above : (2 * (q + 1) + 1) * d = 2 * (d * q) + 3 * d := by ring
  have next : 2 * (q + 1) * d = 2 * (d * q) + 2 * d := by ring
  split_ifs with low high
  · rw [below, same]
    omega
  · rw [above, next]
    omega
  · rcases Nat.mod_two_eq_zero_or_one q with even | odd
    · have kept : q + q % 2 = q := by rw [even, Nat.add_zero]
      rw [kept, below, same]
      exact ⟨by omega, by omega, fun _ => even⟩
    · rw [odd, above, next]
      omega

namespace Json

theorem decimalText_tenths (n : Nat) :
    decimalText (Int.ofNat n) 1 = toString (n / 10) ++ "." ++ toString (n % 10) := by
  have digits : List.replicate (1 + 1 - (Nat.toDigits 10 n).length) '0' ++ Nat.toDigits 10 n =
      Nat.toDigits 10 (n / 10) ++ [(n % 10).digitChar] := by
    rcases Nat.lt_or_ge n 10 with small | large
    · rw [Nat.toDigits_of_lt_base small, Nat.div_eq_of_lt small, Nat.mod_eq_of_lt small]
      rfl
    · have long : 1 ≤ (Nat.toDigits 10 (n / 10)).length :=
        List.length_pos_iff.2 Nat.toDigits_ne_nil
      rw [Nat.toDigits_of_base_le (by decide) large]
      have : 1 + 1 - (Nat.toDigits 10 (n / 10) ++ [(n % 10).digitChar]).length = 0 := by
        rw [List.length_append, List.length_singleton]
        omega
      rw [this]
      rfl
  have positive : ¬ (Int.ofNat n : Int) < 0 := by simp
  have last : toString (n % 10) = String.ofList [(n % 10).digitChar] := by
    rw [Nat.toString_eq_ofList_toDigits, Nat.toDigits_of_lt_base (Nat.mod_lt n (by decide))]
  unfold decimalText
  dsimp only
  rw [show (Int.ofNat n).natAbs = n from rfl, digits, if_neg positive, last,
    Nat.toString_eq_ofList_toDigits]
  apply String.ext
  simp

end Json

/-- The warnings about the size of a file, in bytes: more than ten megabytes are shown with one
decimal place. -/
def SizeWarned (size : Nat) (warnings : List String) : Prop :=
  (size ≤ 10 * 1048576 ∧ warnings = []) ∨
  (10 * 1048576 < size ∧ ∃ tenths, NearestTenths size 1048576 tenths ∧
    warnings = ["Large file (" ++ toString (tenths / 10) ++ "." ++ toString (tenths % 10) ++
      "MB) may impact analysis performance"])

theorem sizeWarned_sizeWarnings (size : Nat) : SizeWarned size (sizeWarnings size) := by
  unfold sizeWarnings
  split_ifs with large
  · refine .inr ⟨by simpa [mebibyte] using large, _,
      nearestTenths_roundedQuotient size (d := 1048576) (by decide), ?_⟩
    rw [megabytesText, Json.decimalText_tenths]
    simp [mebibyte, String.append_assoc]
  · exact .inl ⟨by simpa [mebibyte] using large, rfl⟩

end LostUpdate
