import BlockMarkup.Json.Reader
import Mathlib.Tactic

/-!
# Literals are read back

The literal of a text is a string between quotes in which no quote stands alone and no control
character stands at all, so it cannot end early or break a line. Reading it gives back the text.
-/

namespace BlockMarkup.Json

/-- Whether characters can stand between the quotes of a literal: none of them is a control
character, and quotes and backslashes stand behind a backslash only. -/
def isEscaped : List Char → Bool
  | [] => true
  | [c] => c ≠ '"' && c ≠ '\\' && 0x20 ≤ c.toNat
  | c :: d :: cs =>
    if c = '\\' then 0x20 ≤ d.toNat && isEscaped cs
    else c ≠ '"' && 0x20 ≤ c.toNat && isEscaped (d :: cs)

/-- Whether characters are a literal of a text. -/
structure IsLiteral
    (chars : List Char)
    (s : String) : Prop where
  quoted : ∃ body, chars = '"' :: (body ++ ['"']) ∧ isEscaped body = true
  printable : ∀ c ∈ chars, 0x20 ≤ c.toNat
  read : read (String.ofList chars) = some (text s)

theorem hexValue?_hexDigit : ∀ n < 16, hexValue? (hexDigit n) = some n := by
  decide

theorem hexDigit_printable :
    ∀ n < 16, 0x20 ≤ (hexDigit n).toNat ∧ hexDigit n ≠ '"' ∧ hexDigit n ≠ '\\' := by
  decide

theorem hexUnit?_control
    {n : Nat}
    (hn : n < 0x20)
    (rest : List Char) :
    hexUnit? ('0' :: '0' :: hexDigit (n / 16) :: hexDigit (n % 16) :: rest) = some (n, rest) := by
  have hhigh : hexValue? (hexDigit (n / 16)) = some (n / 16) := hexValue?_hexDigit _ (by omega)
  have hlow : hexValue? (hexDigit (n % 16)) = some (n % 16) := hexValue?_hexDigit _ (by omega)
  have hzero : hexValue? '0' = some 0 := rfl
  have hsum : ((0 * 16 + 0) * 16 + n / 16) * 16 + n % 16 = n := by omega
  simp only [hexUnit?, hzero, hhigh, hlow, Option.bind_eq_bind, Option.bind_some, hsum]

theorem ofNat_toNat
    {c : Char}
    (hc : c.toNat < 0x20) :
    Unit16.ofNat c.toNat = .char c := by
  have hpair : (decide (0xD800 ≤ c.toNat) && decide (c.toNat ≤ 0xDFFF)) = false := by
    rw [decide_eq_false (by omega : ¬ 0xD800 ≤ c.toNat), Bool.false_and]
  rw [Unit16.ofNat, hpair, Char.ofNat_toNat]
  rfl

section Reading

variable (fuel : Nat) (rest : List Char)

theorem stringUnits_short
    {e c : Char}
    (he : e ≠ 'u')
    (hc : shortEscape? e = some c) :
    stringUnits (fuel + 1) ('\\' :: e :: rest) =
      (stringUnits fuel rest).map fun read => (.char c :: read.1, read.2) := by
  cases hread : stringUnits fuel rest <;> simp [stringUnits, he, hc, hread]

theorem stringUnits_control
    {c : Char}
    (hc : c.toNat < 0x20) :
    stringUnits (fuel + 1)
        ('\\' :: 'u' :: '0' :: '0' :: hexDigit (c.toNat / 16) :: hexDigit (c.toNat % 16) :: rest) =
      (stringUnits fuel rest).map fun read => (.char c :: read.1, read.2) := by
  cases hread : stringUnits fuel rest <;>
    simp [stringUnits, hexUnit?_control hc, ofNat_toNat hc, hread]

/-- One character of a literal is read as one unit. -/
theorem stringUnits_escapeChar
    (c : Char) :
    stringUnits (fuel + 1) (escapeChar c ++ rest) =
      (stringUnits fuel rest).map fun read => (.char c :: read.1, read.2) := by
  unfold escapeChar
  split_ifs with hquote hbackslash hb hf hn hr ht hcontrol
  · exact stringUnits_short fuel rest (by decide) (by rw [hquote]; rfl)
  · exact stringUnits_short fuel rest (by decide) (by rw [hbackslash]; rfl)
  · exact stringUnits_short fuel rest (by decide) (by rw [hb]; rfl)
  · exact stringUnits_short fuel rest (by decide) (by rw [hf]; rfl)
  · exact stringUnits_short fuel rest (by decide) (by rw [hn]; rfl)
  · exact stringUnits_short fuel rest (by decide) (by rw [hr]; rfl)
  · exact stringUnits_short fuel rest (by decide) (by rw [ht]; rfl)
  · exact stringUnits_control fuel rest hcontrol
  · cases hread : stringUnits fuel rest <;>
      simp [stringUnits, hquote, hbackslash, hcontrol, hread]

/-- Inside a literal, every character is read back, up to the closing quote. -/
theorem stringUnits_flatMap_escapeChar
    {cs : List Char}
    (hfuel : cs.length < fuel) :
    stringUnits fuel (cs.flatMap escapeChar ++ '"' :: rest) = some (cs.map .char, rest) := by
  induction cs generalizing fuel with
  | nil =>
      obtain ⟨fuel, rfl⟩ := Nat.exists_eq_add_one_of_ne_zero (Nat.ne_of_gt hfuel)
      simp [stringUnits]
  | cons c cs ih =>
      have hpos : fuel ≠ 0 := Nat.ne_of_gt (Nat.zero_lt_of_lt hfuel)
      obtain ⟨fuel, rfl⟩ := Nat.exists_eq_add_one_of_ne_zero hpos
      rw [List.flatMap_cons, List.append_assoc, stringUnits_escapeChar,
        ih fuel (Nat.lt_of_succ_lt_succ hfuel)]
      rfl

end Reading

theorem joinUnits_map_char
    (cs : List Char) :
    joinUnits (cs.map .char) = some cs := by
  induction cs with
  | nil =>
      rfl
  | cons c cs ih =>
      rw [List.map_cons, joinUnits, ih]
      rfl

/-- What stands behind a literal does not matter. -/
theorem readString_flatMap_escapeChar
    (cs rest : List Char) :
    readString (cs.flatMap escapeChar ++ '"' :: rest) = some (some (String.ofList cs), rest) := by
  have hlength : cs.length ≤ (cs.flatMap escapeChar).length := by
    induction cs with
    | nil =>
        exact Nat.le_refl _
    | cons c cs ih =>
        have hc : 0 < (escapeChar c).length := by
          unfold escapeChar
          split_ifs <;> simp
        rw [List.flatMap_cons, List.length_append, List.length_cons]
        omega
  have hunits := stringUnits_flatMap_escapeChar ((cs.flatMap escapeChar ++ '"' :: rest).length + 1)
    rest (Nat.lt_succ_of_le (hlength.trans (by simp)))
  rw [readString, hunits]
  simp [joinUnits_map_char]

/-- A literal is read as its text. -/
theorem read_literal
    (s : String) :
    read (literal s) = some (text s) := by
  have hstring := readString_flatMap_escapeChar s.toList []
  have hvalue : ∀ fuel, readValue (fuel + 1) (literal s).toList = some (text s, []) := by
    intro fuel
    simp [literal, readValue, isSpace, hstring, text]
  rw [read, hvalue]
  rfl

/-- Different texts have different literals. -/
theorem literal_injective : Function.Injective literal := by
  intro s t hst
  have hread := read_literal s
  rw [hst, read_literal t] at hread
  simpa [text] using hread.symm

section Escaped

theorem isEscaped_backslash
    {d : Char}
    (hd : 0x20 ≤ d.toNat)
    (cs : List Char) :
    isEscaped ('\\' :: d :: cs) = isEscaped cs := by
  simp [isEscaped, hd]

theorem isEscaped_plain
    {c : Char}
    (hquote : c ≠ '"')
    (hbackslash : c ≠ '\\')
    (hc : 0x20 ≤ c.toNat)
    (cs : List Char) :
    isEscaped (c :: cs) = isEscaped cs := by
  cases cs <;> simp [isEscaped, hquote, hbackslash, hc]

theorem isEscaped_escapeChar
    (c : Char)
    (cs : List Char) :
    isEscaped (escapeChar c ++ cs) = isEscaped cs := by
  unfold escapeChar
  split_ifs with hquote hbackslash hb hf hn hr ht hcontrol
  iterate 7 exact isEscaped_backslash (by decide) cs
  · obtain ⟨hhigh, hhighQuote, hhighBackslash⟩ := hexDigit_printable (c.toNat / 16) (by omega)
    obtain ⟨hlow, hlowQuote, hlowBackslash⟩ := hexDigit_printable (c.toNat % 16) (by omega)
    simp only [List.cons_append, List.nil_append]
    rw [isEscaped_backslash (by decide), isEscaped_plain (by decide) (by decide) (by decide),
      isEscaped_plain (by decide) (by decide) (by decide),
      isEscaped_plain hhighQuote hhighBackslash hhigh, isEscaped_plain hlowQuote hlowBackslash hlow]
  · exact isEscaped_plain hquote hbackslash (Nat.le_of_not_lt hcontrol) cs

/-- No quote and no control character stands in a literal without an escape. -/
theorem isEscaped_flatMap_escapeChar
    (cs : List Char) :
    isEscaped (cs.flatMap escapeChar) = true := by
  induction cs with
  | nil =>
      rfl
  | cons c cs ih =>
      rw [List.flatMap_cons, isEscaped_escapeChar, ih]

/-- What is escaped stays on its line. -/
theorem printable_of_isEscaped
    {cs : List Char}
    (hcs : isEscaped cs = true) :
    ∀ c ∈ cs, 0x20 ≤ c.toNat := by
  fun_induction isEscaped cs with
  | case1 =>
      simp
  | case2 c =>
      simpa using (Bool.and_eq_true_iff.1 hcs).2
  | case3 d cs ih =>
      rw [Bool.and_eq_true, decide_eq_true_eq] at hcs
      rw [List.forall_mem_cons, List.forall_mem_cons]
      exact ⟨by decide, hcs.1, ih hcs.2⟩
  | case4 c d cs hc ih =>
      simp only [Bool.and_eq_true, decide_eq_true_eq] at hcs
      rw [List.forall_mem_cons]
      exact ⟨hcs.1.2, ih hcs.2⟩

end Escaped

/-- The literal of a text is one. -/
theorem isLiteral_literal
    (s : String) :
    IsLiteral (literal s).toList s := by
  have hescaped := isEscaped_flatMap_escapeChar s.toList
  have hquoted : (literal s).toList = '"' :: (s.toList.flatMap escapeChar ++ ['"']) := by
    rw [literal, String.toList_ofList, List.cons_append]
  refine ⟨⟨s.toList.flatMap escapeChar, hquoted, hescaped⟩, ?_, ?_⟩
  · rw [hquoted, List.forall_mem_cons, List.forall_mem_append, List.forall_mem_singleton]
    exact ⟨by decide, printable_of_isEscaped hescaped, by decide⟩
  · rw [String.ofList_toList]
    exact read_literal s

end BlockMarkup.Json
