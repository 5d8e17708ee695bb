import LostUpdate.Proofs.Json.Strings
import Mathlib.Data.List.TakeWhile

namespace LostUpdate.Json

section Numbers

variable {whole fraction rest : List Char}

/-- Behind a number: nothing that could belong to it. -/
def Ends (rest : List Char) : Prop := ∀ c ∈ rest.head?, c.isDigit = false ∧ c ≠ '.'

theorem cut_digits (digits : ∀ c ∈ whole, c.isDigit = true)
    (ends : ∀ c ∈ rest.head?, c.isDigit = false) :
    (whole ++ rest).takeWhile Char.isDigit = whole ∧
      (whole ++ rest).dropWhile Char.isDigit = rest := by
  rw [List.takeWhile_append_of_pos digits, List.dropWhile_append_of_pos digits]
  cases rest with
  | nil => simp
  | cons c rest => simp [ends c rfl]

theorem readUnsigned?_whole (negative : Bool) (some : whole ≠ [])
    (digits : ∀ c ∈ whole, c.isDigit = true) (ends : Ends rest) :
    readUnsigned? negative (whole ++ rest) =
      .some (integer (if negative then -(digitsValue whole : Int) else digitsValue whole), rest) := by
  obtain ⟨take, drop⟩ := cut_digits digits fun c hc => (ends c hc).1
  unfold readUnsigned?
  dsimp only
  rw [take, drop, if_neg (by simpa using some)]
  split
  · exact absurd rfl (ends '.' rfl).2
  · rfl

theorem readUnsigned?_fraction (negative : Bool) (some : whole ≠ []) (behind : fraction ≠ [])
    (digits : ∀ c ∈ whole ++ fraction, c.isDigit = true) (ends : Ends rest) :
    readUnsigned? negative (whole ++ '.' :: (fraction ++ rest)) =
      .some (decimal (if negative then -(digitsValue (whole ++ fraction) : Int)
        else digitsValue (whole ++ fraction)) fraction.length, rest) := by
  have point : ∀ c ∈ ('.' :: (fraction ++ rest)).head?, c.isDigit = false := by
    rintro _ ⟨⟩
    decide
  obtain ⟨take, drop⟩ := cut_digits (fun c hc => digits c (List.mem_append_left _ hc)) point
  obtain ⟨take', drop'⟩ := cut_digits (fun c hc => digits c (List.mem_append_right _ hc))
    fun c hc => (ends c hc).1
  unfold readUnsigned?
  dsimp only
  rw [take, drop, if_neg (by simpa using some)]
  simp [take', drop', behind]

theorem readNumber?_signed (negative : Bool) (some : whole ≠ [])
    (digits : ∀ c ∈ whole, c.isDigit = true) :
    readNumber? ((if negative then ['-'] else []) ++ (whole ++ rest)) =
      readUnsigned? negative (whole ++ rest) := by
  cases negative with
  | true => rfl
  | false =>
    cases whole with
    | nil => exact absurd rfl some
    | cons c whole =>
      have unsigned : c ≠ '-' := by
        rintro rfl
        exact absurd (digits '-' (List.mem_cons_self)) (by decide)
      change readNumber? (c :: (whole ++ rest)) = readUnsigned? false (c :: (whole ++ rest))
      rw [readNumber?]
      rintro _ same
      exact unsigned (List.cons.inj same).1

/-- The digits of a number are its value, as many zeros as there may be in front. -/
theorem digitsValue_toDigits (zeros n : Nat) :
    digitsValue (List.replicate zeros '0' ++ Nat.toDigits 10 n) = n := by
  have same (ds : List Char) : digitsValue ds = Nat.ofDigitChars 10 ds 0 := by
    simp [digitsValue, Nat.ofDigitChars_eq_foldl, Nat.mul_comm]
  rw [same, Nat.ofDigitChars_append, Nat.ofDigitChars_replicate_zero]
  simp

theorem isDigit_of_mem {zeros n : Nat} {c : Char}
    (h : c ∈ List.replicate zeros '0' ++ Nat.toDigits 10 n) : c.isDigit = true := by
  rcases List.mem_append.1 h with h | h
  · rw [List.eq_of_mem_replicate h]
    decide
  · exact Nat.isDigit_of_mem_toDigits (by decide) (by decide) h

theorem signed_natAbs (n : Int) :
    (if decide (n < 0) = true then -(n.natAbs : Int) else n.natAbs) = n := by
  by_cases h : n < 0
  · rw [if_pos (decide_eq_true h)]
    omega
  · rw [if_neg (by simpa using h)]
    omega

theorem toList_toString (n : Int) :
    (toString n).toList = (if decide (n < 0) then ['-'] else []) ++ Nat.toDigits 10 n.natAbs := by
  cases n with
  | ofNat m =>
    change (toString m).toList = _
    simp
  | negSucc m =>
    change ("-" ++ toString (m + 1)).toList = _
    simp [Int.negSucc_lt_zero]

theorem isDigit_toDigits {n : Nat} : ∀ c ∈ Nat.toDigits 10 n, c.isDigit = true := fun _ hc =>
  Nat.isDigit_of_mem_toDigits (by decide) (by decide) hc

theorem readNumber?_integer (n : Int) (ends : Ends rest) :
    readNumber? ((toString n).toList ++ rest) = some (integer n, rest) := by
  have value : digitsValue (Nat.toDigits 10 n.natAbs) = n.natAbs := digitsValue_toDigits 0 n.natAbs
  rw [toList_toString, List.append_assoc, readNumber?_signed _ Nat.toDigits_ne_nil isDigit_toDigits,
    readUnsigned?_whole _ Nat.toDigits_ne_nil isDigit_toDigits ends, value, signed_natAbs]

/-- The text of a decimal: a sign, digits, and the places behind a point. -/
theorem exists_digits (units : Int) (places : Nat) : ∃ whole fraction : List Char,
    whole ≠ [] ∧ fraction.length = places ∧ (∀ c ∈ whole ++ fraction, c.isDigit = true) ∧
      digitsValue (whole ++ fraction) = units.natAbs ∧
        (decimalText units places).toList = (if decide (units < 0) then ['-'] else []) ++
          (whole ++ if fraction.isEmpty then [] else '.' :: fraction) := by
  generalize hpadded : List.replicate (places + 1 - (Nat.toDigits 10 units.natAbs).length) '0' ++
    Nat.toDigits 10 units.natAbs = padded
  have long : places + 1 ≤ padded.length := by
    rw [← hpadded, List.length_append, List.length_replicate]
    omega
  have cut := List.take_append_drop (padded.length - places) padded
  refine ⟨padded.take (padded.length - places), padded.drop (padded.length - places), ?_, ?_, ?_, ?_,
    ?_⟩
  · refine List.ne_nil_of_length_pos ?_
    rw [List.length_take]
    omega
  · rw [List.length_drop]
    omega
  · rw [cut, ← hpadded]
    exact fun c hc => isDigit_of_mem hc
  · rw [cut, ← hpadded]
    exact digitsValue_toDigits _ _
  · unfold decimalText
    dsimp only
    rw [hpadded]
    cases (padded.drop (padded.length - places)).isEmpty <;>
      by_cases negative : units < 0 <;> simp [negative]

theorem readNumber?_decimal (units : Int) (places : Nat) (ends : Ends rest) :
    readNumber? ((decimalText units places).toList ++ rest) =
      some (if places = 0 then integer units else decimal units places, rest) := by
  obtain ⟨whole, fraction, hwhole, rfl, digits, value, text⟩ := exists_digits units places
  have first : ∀ c ∈ whole, c.isDigit = true := fun c hc => digits c (List.mem_append_left _ hc)
  rw [text, List.append_assoc, List.append_assoc, readNumber?_signed _ hwhole first]
  cases fraction with
  | nil =>
    rw [List.append_nil] at value
    rw [List.isEmpty_nil, if_pos rfl, List.nil_append, readUnsigned?_whole _ hwhole first ends, value,
      signed_natAbs]
    rfl
  | cons d fraction =>
    rw [List.isEmpty_cons, if_neg Bool.false_ne_true, List.cons_append,
      readUnsigned?_fraction _ hwhole (List.cons_ne_nil d fraction) digits ends, value, signed_natAbs]
    rfl

end Numbers

mutual

/-- A value as it is read back from its text: texts are joined, and a decimal without places is an
integer. -/
def asRead : Json → Json
  | decimal units places => if places = 0 then integer units else decimal units places
  | text s => text (Text.joined s)
  | array items => array (asReadItems items)
  | object fields => object (asReadFields fields)
  | j => j

def asReadItems : List Json → List Json
  | [] => []
  | j :: rest => j.asRead :: asReadItems rest

def asReadFields : List (String × Json) → List (String × Json)
  | [] => []
  | (name, j) :: rest => (Text.joined name, j.asRead) :: asReadFields rest

end

section Values

variable {fuel level : Nat} {rest : List Char}

/-- A character with which the text of a value starts. -/
def IsFirst (c : Char) : Prop := c.isDigit = true ∨ c ∈ ['-', 'n', 't', 'f', '"', '[', '\x7b']

theorem IsFirst.skipBlanks {c : Char} (h : IsFirst c) (cs : List Char) :
    skipBlanks (c :: cs) = c :: cs := by
  have visible : c ∉ [' ', '\n', '\r', '\t'] := by
    rintro blank
    simp only [List.mem_cons, List.not_mem_nil, or_false] at blank
    rcases blank with rfl | rfl | rfl | rfl <;> revert h <;> unfold IsFirst <;> decide
  simp only [List.mem_cons, List.not_mem_nil, or_false, not_or] at visible
  simp [Json.skipBlanks, visible]

theorem skipBlanks_newline (level : Nat) (cs : List Char) :
    skipBlanks ((newline level).toList ++ cs) = skipBlanks cs := by
  have blanks : ∀ c ∈ (newline level).toList,
      (decide (c = ' ') || decide (c = '\n') || decide (c = '\r') || decide (c = '\t')) = true := by
    intro c hc
    simp only [newline, String.toList_ofList, List.mem_cons, List.mem_replicate] at hc
    rcases hc with rfl | ⟨-, rfl⟩ <;> decide
  rw [skipBlanks, List.dropWhile_append_of_pos blanks]
  rfl

theorem isFirst_of_sign (negative : Bool) {whole : List Char} (cs : List Char) (hwhole : whole ≠ [])
    (digits : ∀ c ∈ whole, c.isDigit = true) :
    ∃ c l, (if negative then ['-'] else []) ++ (whole ++ cs) = c :: l ∧
      (c = '-' ∨ c.isDigit = true) := by
  cases negative with
  | true => exact ⟨'-', whole ++ cs, rfl, .inl rfl⟩
  | false =>
    obtain ⟨c, whole, rfl⟩ := List.exists_cons_of_ne_nil hwhole
    exact ⟨c, whole ++ cs, rfl, .inr (digits c List.mem_cons_self)⟩

theorem first_integer (n : Int) :
    ∃ c cs, (toString n).toList = c :: cs ∧ (c = '-' ∨ c.isDigit = true) := by
  obtain ⟨c, cs, text, first⟩ := isFirst_of_sign (decide (n < 0)) []
    Nat.toDigits_ne_nil isDigit_toDigits
  rw [List.append_nil, ← toList_toString] at text
  exact ⟨c, cs, text, first⟩

theorem first_decimal (units : Int) (places : Nat) :
    ∃ c cs, (decimalText units places).toList = c :: cs ∧ (c = '-' ∨ c.isDigit = true) := by
  obtain ⟨whole, fraction, hwhole, -, digits, -, written⟩ := exists_digits units places
  obtain ⟨c, cs, text, first⟩ := isFirst_of_sign (decide (units < 0))
    (if fraction.isEmpty then [] else '.' :: fraction) hwhole
    fun c hc => digits c (List.mem_append_left _ hc)
  exact ⟨c, cs, written.trans text, first⟩

/-- The texts of the items of an array, one below the other. -/
def itemLines (level : Nat) (items : List Json) : List Char :=
  (("," ++ newline level).intercalate (prettyItems level items)).toList

/-- The texts of the fields of an object, one below the other. -/
def fieldLines (level : Nat) (fields : List (String × Json)) : List Char :=
  (("," ++ newline level).intercalate (prettyFields level fields)).toList

theorem itemLines_singleton (j : Json) : itemLines level [j] = (j.prettyAt level).toList := by
  simp [itemLines, prettyItems]

theorem itemLines_cons (j k : Json) (items : List Json) : itemLines level (j :: k :: items) =
    (j.prettyAt level).toList ++ ',' :: ((newline level).toList ++ itemLines level (k :: items)) := by
  rw [itemLines, prettyItems, prettyItems, String.intercalate_cons_cons, ← prettyItems]
  simp [itemLines]

theorem fieldLines_singleton (name : String) (j : Json) : fieldLines level [(name, j)] =
    (quote name).toList ++ ':' :: ' ' :: (j.prettyAt level).toList := by
  simp [fieldLines, prettyFields]

theorem fieldLines_cons (name : String) (j : Json) (f : String × Json)
    (fields : List (String × Json)) : fieldLines level ((name, j) :: f :: fields) =
      (quote name).toList ++ ':' :: ' ' :: ((j.prettyAt level).toList ++
        ',' :: ((newline level).toList ++ fieldLines level (f :: fields))) := by
  obtain ⟨other, k⟩ := f
  rw [fieldLines, prettyFields, prettyFields, String.intercalate_cons_cons, ← prettyFields]
  simp [fieldLines]

theorem toList_array (level : Nat) (j : Json) (items : List Json) :
    ((array (j :: items)).prettyAt level).toList = '[' :: ((newline (level + 1)).toList ++
      (itemLines (level + 1) (j :: items) ++ ((newline level).toList ++ [']']))) := by
  simp [prettyAt, itemLines]

theorem toList_object (level : Nat) (f : String × Json) (fields : List (String × Json)) :
    ((object (f :: fields)).prettyAt level).toList = '\x7b' :: ((newline (level + 1)).toList ++
      (fieldLines (level + 1) (f :: fields) ++ ((newline level).toList ++ ['\x7d']))) := by
  simp [prettyAt, fieldLines]

/-- The text of a value starts with a character that tells its kind. -/
theorem exists_first (level : Nat) (j : Json) :
    ∃ c cs, (j.prettyAt level).toList = c :: cs ∧ IsFirst c := by
  have number {c : Char} (h : c = '-' ∨ c.isDigit = true) : IsFirst c :=
    h.elim (fun same => .inr (by simp [same])) .inl
  cases j with
  | null => exact ⟨'n', ['u', 'l', 'l'], by simp [prettyAt, atomText], .inr (by decide)⟩
  | bool b =>
    cases b with
    | false => exact ⟨'f', ['a', 'l', 's', 'e'], by simp [prettyAt, atomText], .inr (by decide)⟩
    | true => exact ⟨'t', ['r', 'u', 'e'], by simp [prettyAt, atomText], .inr (by decide)⟩
  | integer n =>
    obtain ⟨c, cs, text, first⟩ := first_integer n
    exact ⟨c, cs, text, number first⟩
  | decimal units places =>
    obtain ⟨c, cs, text, first⟩ := first_decimal units places
    exact ⟨c, cs, text, number first⟩
  | text s => exact ⟨'"', _, toList_quote s, .inr (by decide)⟩
  | array items =>
    cases items with
    | nil => exact ⟨'[', [']'], by simp [prettyAt], .inr (by decide)⟩
    | cons j items => exact ⟨'[', _, toList_array level j items, .inr (by decide)⟩
  | object fields =>
    cases fields with
    | nil => exact ⟨'\x7b', ['\x7d'], by simp [prettyAt], .inr (by decide)⟩
    | cons f fields => exact ⟨'\x7b', _, toList_object level f fields, .inr (by decide)⟩

theorem readValue?_number {c : Char} (h : c = '-' ∨ c.isDigit = true) (cs : List Char) :
    readValue? (fuel + 1) (c :: cs) = readNumber? (c :: cs) := by
  have first : IsFirst c := h.elim (fun same => .inr (by simp [same])) .inl
  rw [readValue?, first.skipBlanks]
  have other (k : Char) (hk : (k = '-' ∨ k.isDigit = true) → False) : c ≠ k :=
    fun same => hk (same ▸ h)
  split <;> first | rfl | exact absurd (List.cons.inj ‹_›).1 (other _ (by decide))

theorem readValue?_newline (m : Nat) (cs : List Char) :
    readValue? fuel ((newline m).toList ++ cs) = readValue? fuel cs := by
  cases fuel with
  | zero => simp [readValue?]
  | succ fuel => rw [readValue?, readValue?, skipBlanks_newline]

theorem readItems?_newline (m : Nat) (cs : List Char) :
    readItems? fuel ((newline m).toList ++ cs) = readItems? fuel cs := by
  cases fuel with
  | zero => simp [readItems?]
  | succ fuel => rw [readItems?, readItems?, readValue?_newline]

theorem readFields?_newline (m : Nat) (cs : List Char) :
    readFields? fuel ((newline m).toList ++ cs) = readFields? fuel cs := by
  cases fuel with
  | zero => simp [readFields?]
  | succ fuel => rw [readFields?, readFields?, skipBlanks_newline]

theorem ends_newline (m : Nat) (cs : List Char) : Ends ((newline m).toList ++ cs) := by
  intro c hc
  simp only [newline, String.toList_ofList, List.cons_append, List.head?_cons, Option.mem_def,
    Option.some.injEq] at hc
  rw [← hc]
  decide

theorem ends_comma (cs : List Char) : Ends (',' :: cs) := by
  rintro _ ⟨⟩
  decide

theorem skipBlanks_comma (cs : List Char) : skipBlanks (',' :: cs) = ',' :: cs := rfl

theorem skipBlanks_bracket (cs : List Char) : skipBlanks (']' :: cs) = ']' :: cs := rfl

theorem skipBlanks_brace (cs : List Char) : skipBlanks ('\x7d' :: cs) = '\x7d' :: cs := rfl

theorem readValue?_bracket (cs : List Char) : readValue? (fuel + 1) ('[' :: cs) =
    match skipBlanks cs with
    | ']' :: rest => some (array [], rest)
    | rest => (readItems? fuel rest).map fun (items, rest) => (array items, rest) := by
  rw [readValue?]
  rfl

theorem readValue?_brace (cs : List Char) : readValue? (fuel + 1) ('\x7b' :: cs) =
    match skipBlanks cs with
    | '\x7d' :: rest => some (object [], rest)
    | rest => (readFields? fuel rest).map fun (fields, rest) => (object fields, rest) := by
  rw [readValue?]
  rfl

theorem itemLines_first {items : List Json} (some : items ≠ []) :
    ∃ c cs, itemLines level items = c :: cs ∧ IsFirst c := by
  match items with
  | [] => exact absurd rfl some
  | [j] =>
    rw [itemLines_singleton]
    exact exists_first level j
  | j :: k :: items =>
    obtain ⟨c, cs, text, first⟩ := exists_first level j
    exact ⟨c, _, by rw [itemLines_cons, text]; rfl, first⟩

theorem fieldLines_first {fields : List (String × Json)} (some : fields ≠ []) :
    ∃ cs, fieldLines level fields = '"' :: cs := by
  match fields with
  | [] => exact absurd rfl some
  | [(name, j)] => exact ⟨_, by rw [fieldLines_singleton, toList_quote]; rfl⟩
  | (name, j) :: f :: fields => exact ⟨_, by rw [fieldLines_cons, toList_quote]; rfl⟩

/-- An array that is not empty is read item by item. -/
theorem readValue?_array {items : List Json} (some : items ≠ []) (cs : List Char) :
    readValue? (fuel + 1) ('[' :: ((newline level).toList ++ (itemLines level items ++ cs))) =
      (readItems? fuel (itemLines level items ++ cs)).map fun (items, rest) =>
        (array items, rest) := by
  obtain ⟨c, l, text, first⟩ := itemLines_first some
  rw [readValue?_bracket, skipBlanks_newline, text, List.cons_append, first.skipBlanks]
  split
  · rename_i same
    rw [(List.cons.inj same).1] at first
    exact absurd first (by unfold IsFirst; decide)
  · rfl

theorem readValue?_object {fields : List (String × Json)} (some : fields ≠ []) (cs : List Char) :
    readValue? (fuel + 1) ('\x7b' :: ((newline level).toList ++ (fieldLines level fields ++ cs))) =
      (readFields? fuel (fieldLines level fields ++ cs)).map fun (fields, rest) =>
        (object fields, rest) := by
  obtain ⟨l, text⟩ := fieldLines_first some
  rw [readValue?_brace, skipBlanks_newline, text]
  rfl

/-- The name of a field is read, and then its value. -/
theorem readFields?_field (name : String) (cs : List Char) :
    readFields? (fuel + 1) ((quote name).toList ++ ':' :: ' ' :: cs) = (do
      let (value, rest) ← readValue? fuel cs
      match skipBlanks rest with
      | ',' :: rest =>
        let (fields, rest) ← readFields? fuel rest
        return ((Text.joined name, value) :: fields, rest)
      | '\x7d' :: rest => return ([(Text.joined name, value)], rest)
      | _ => none) := by
  have blank : readValue? fuel (' ' :: cs) = readValue? fuel cs := by
    cases fuel with
    | zero => simp [readValue?]
    | succ fuel =>
      rw [readValue?, readValue?]
      rfl
  rw [readFields?, toList_quote, List.cons_append, List.append_assoc, List.singleton_append, ← blank]
  refine (congrArg (Option.bind · _) (readText?_quoted name (':' :: ' ' :: cs))).trans ?_
  rfl

mutual

/-- What a value is written as is read as the value, whatever stands behind it. -/
theorem readValue?_prettyAt (j : Json) (level fuel : Nat) (rest : List Char)
    (enough : (j.prettyAt level).toList.length < fuel) (ends : Ends rest) :
    readValue? fuel ((j.prettyAt level).toList ++ rest) = some (j.asRead, rest) := by
  obtain ⟨fuel, rfl⟩ := Nat.exists_eq_add_one_of_ne_zero (Nat.ne_zero_of_lt enough)
  match j with
  | null => simp [prettyAt, atomText, readValue?, skipBlanks, asRead]
  | bool true => simp [prettyAt, atomText, readValue?, skipBlanks, asRead]
  | bool false => simp [prettyAt, atomText, readValue?, skipBlanks, asRead]
  | integer n =>
    obtain ⟨c, cs, text, first⟩ := first_integer n
    rw [show (integer n).prettyAt level = toString n from rfl, text, List.cons_append,
      readValue?_number first, ← List.cons_append, ← text, readNumber?_integer n ends]
    rfl
  | decimal units places =>
    obtain ⟨c, cs, text, first⟩ := first_decimal units places
    rw [show (decimal units places).prettyAt level = decimalText units places from rfl, text,
      List.cons_append, readValue?_number first, ← List.cons_append, ← text,
      readNumber?_decimal units places ends]
    rfl
  | text s =>
    rw [show (Json.text s).prettyAt level = quote s from rfl, toList_quote, List.cons_append,
      List.append_assoc, readValue?]
    change (readText? _).map _ = _
    rw [List.singleton_append, readText?_quoted]
    rfl
  | array [] => simp [prettyAt, readValue?, skipBlanks, asRead, asReadItems]
  | object [] => simp [prettyAt, readValue?, skipBlanks, asRead, asReadFields]
  | array (k :: items) =>
    rw [toList_array] at enough ⊢
    simp only [List.length_cons, List.length_append] at enough
    simp only [List.cons_append, List.append_assoc, List.nil_append]
    rw [readValue?_array (List.cons_ne_nil k items),
      readItems?_itemLines (k :: items) (level + 1) level fuel rest (List.cons_ne_nil k items)
        (by omega)]
    rfl
  | object (f :: fields) =>
    rw [toList_object] at enough ⊢
    simp only [List.length_cons, List.length_append] at enough
    simp only [List.cons_append, List.append_assoc, List.nil_append]
    rw [readValue?_object (List.cons_ne_nil f fields),
      readFields?_fieldLines (f :: fields) (level + 1) level fuel rest (List.cons_ne_nil f fields)
        (by omega)]
    rfl

theorem readItems?_itemLines (items : List Json) (level m fuel : Nat) (rest : List Char)
    (some : items ≠ []) (enough : (itemLines level items).length + 1 < fuel) :
    readItems? fuel (itemLines level items ++ ((newline m).toList ++ ']' :: rest)) =
      .some (asReadItems items, rest) := by
  obtain ⟨fuel, rfl⟩ := Nat.exists_eq_add_one_of_ne_zero (Nat.ne_zero_of_lt enough)
  match items with
  | [] => exact absurd rfl some
  | [j] =>
    rw [itemLines_singleton] at enough ⊢
    rw [readItems?, readValue?_prettyAt j level fuel _ (by omega) (ends_newline m _)]
    simp [skipBlanks_newline, skipBlanks_bracket, asReadItems]
  | j :: k :: items =>
    rw [itemLines_cons] at enough ⊢
    simp only [List.length_cons, List.length_append] at enough
    simp only [List.cons_append, List.append_assoc]
    rw [readItems?, readValue?_prettyAt j level fuel _ (by omega) (ends_comma _)]
    simp only [Option.bind_eq_bind, Option.bind_some]
    have behind := readItems?_itemLines (k :: items) level m fuel rest
      (List.cons_ne_nil k items) (by omega)
    rw [← readItems?_newline level] at behind
    rw [skipBlanks_comma]
    simp [behind, asReadItems]

theorem readFields?_fieldLines (fields : List (String × Json)) (level m fuel : Nat)
    (rest : List Char) (some : fields ≠ []) (enough : (fieldLines level fields).length + 1 < fuel) :
    readFields? fuel (fieldLines level fields ++ ((newline m).toList ++ '\x7d' :: rest)) =
      .some (asReadFields fields, rest) := by
  obtain ⟨fuel, rfl⟩ := Nat.exists_eq_add_one_of_ne_zero (Nat.ne_zero_of_lt enough)
  match fields with
  | [] => exact absurd rfl some
  | [(name, j)] =>
    rw [fieldLines_singleton] at enough ⊢
    simp only [List.length_cons, List.length_append] at enough
    simp only [List.cons_append, List.append_assoc]
    rw [readFields?_field, readValue?_prettyAt j level fuel _ (by omega) (ends_newline m _)]
    simp [skipBlanks_newline, skipBlanks_brace, asReadFields]
  | (name, j) :: f :: fields =>
    rw [fieldLines_cons] at enough ⊢
    simp only [List.length_cons, List.length_append] at enough
    simp only [List.cons_append, List.append_assoc]
    rw [readFields?_field, readValue?_prettyAt j level fuel _ (by omega) (ends_comma _)]
    simp only [Option.bind_eq_bind, Option.bind_some]
    have behind := readFields?_fieldLines (f :: fields) level m fuel rest
      (List.cons_ne_nil f fields) (by omega)
    rw [← readFields?_newline level] at behind
    rw [skipBlanks_comma]
    simp [behind, asReadFields]

end

end Values

end LostUpdate.Json
