import BlockMarkup.Proofs.Attribute.Animation
import BlockMarkup.Proofs.Text.Words

/-!
# The grammar of animations

Shorthands of animations as a regular language: two to four words with white space around them, each
of a language of its own. Reading tests the words by counting points, stripping units and cutting at
parentheses. What it accepts is that language, with one exception: a number may also end in its
point.

What was read is written back with single spaces, and reading this gives the same animation.
-/

namespace BlockMarkup

namespace Animation

open Computability
open Text (IsWord oneOf spaced mem_kstar_oneOf mem_oneOf_mul_kstar mem_oneOf_mul_iff)

section Grammar

def digit : Language Char := oneOf isAsciiDigit

/-- `[0-9]+`, or `[0-9]*.[0-9]+`. -/
def number : Language Char := digit * digit∗ + digit∗ * {['.']} * (digit * digit∗)

/-- `[0-9]+.`, a number that ends in its point. -/
def pointedNumber : Language Char := digit * digit∗ * {['.']}

/-- What is taken for a number. -/
def looseNumber : Language Char := number + pointedNumber

/-- `[A-Za-z][A-Za-z0-9_-]*`. -/
def identifier : Language Char := oneOf isAsciiLetter * (oneOf isIdentifierChar)∗

/-- A number with a unit. -/
def time (number : Language Char) : Language Char := number * ({['s']} + {['m', 's']})

/-- An identifier, or one with arguments in parentheses. -/
def timing : Language Char :=
  identifier + identifier * {['(']} * (oneOf isArgumentChar)∗ * {[')']}

def count (number : Language Char) : Language Char := {"infinite".toList} + number

/-- The shorthands of animations, with what counts as a number. -/
def shorthand (number : Language Char) : Language Char :=
  spaced [identifier, time number] + spaced [identifier, time number, timing] +
    spaced [identifier, time number, timing, count number]

end Grammar

section Words

variable {cs : List Char} {L : Language Char}

theorem mem_mul_singleton_iff
    {ending : List Char} :
    cs ∈ L * {ending} ↔ ∃ front ∈ L, cs = front ++ ending := by
  simp only [Language.mem_mul]
  constructor
  · rintro ⟨front, hfront, -, rfl, rfl⟩
    exact ⟨front, hfront, rfl⟩
  · rintro ⟨front, hfront, rfl⟩
    exact ⟨front, hfront, ending, rfl, rfl⟩

theorem mem_digits_iff :
    cs ∈ digit * digit∗ ↔ cs ≠ [] ∧ ∀ c ∈ cs, isAsciiDigit c = true :=
  mem_oneOf_mul_kstar

/-- A number is some digits, or digits behind a point with or without digits before it. -/
theorem mem_number_iff :
    cs ∈ number ↔ (cs ≠ [] ∧ ∀ c ∈ cs, isAsciiDigit c = true) ∨
      ∃ whole part, cs = whole ++ '.' :: part ∧ (∀ c ∈ whole, isAsciiDigit c = true) ∧
        part ≠ [] ∧ ∀ c ∈ part, isAsciiDigit c = true := by
  rw [number, Language.mem_add, mem_digits_iff]
  refine or_congr_right ⟨fun hcs => ?_, ?_⟩
  · obtain ⟨front, hfront, part, hpart, rfl⟩ := Language.mem_mul.1 hcs
    obtain ⟨whole, hwhole, rfl⟩ := mem_mul_singleton_iff.1 hfront
    exact ⟨whole, part, by simp, mem_kstar_oneOf.1 hwhole, mem_digits_iff.1 hpart⟩
  · rintro ⟨whole, part, rfl, hwhole, hpart⟩
    exact Language.mem_mul.2 ⟨whole ++ ['.'],
      mem_mul_singleton_iff.2 ⟨whole, mem_kstar_oneOf.2 hwhole, rfl⟩, part,
      mem_digits_iff.2 hpart, by simp⟩

theorem mem_pointedNumber_iff :
    cs ∈ pointedNumber ↔ ∃ whole, cs = whole ++ ['.'] ∧ whole ≠ [] ∧
      ∀ c ∈ whole, isAsciiDigit c = true := by
  rw [pointedNumber, mem_mul_singleton_iff]
  simp only [mem_digits_iff, and_comm]

/-- The check for numbers accepts the loose ones, which may end in a point. -/
theorem isNumber_iff :
    isNumber cs = true ↔ cs ∈ looseNumber := by
  have hpoint : ∀ c, isAsciiDigit c = true → c ≠ '.' := by
    rintro c hc rfl
    exact absurd hc (by decide)
  have hcount {ds : List Char} (hds : ∀ c ∈ ds, isAsciiDigit c = true) : ds.count '.' = 0 :=
    List.count_eq_zero.2 fun hmem => hpoint _ (hds _ hmem) rfl
  rw [looseNumber, Language.mem_add, mem_number_iff, mem_pointedNumber_iff]
  simp only [isNumber, Bool.and_eq_true, decide_eq_true_eq, List.any_eq_true, List.all_eq_true,
    Bool.or_eq_true]
  constructor
  · rintro ⟨⟨hpoints, digit, hmem, hdigit⟩, hchars⟩
    by_cases hcut : '.' ∈ cs
    · -- The only point cuts the text in two runs of digits, one of which is not empty.
      obtain ⟨whole, part, rfl⟩ := List.append_of_mem hcut
      rw [List.count_append, List.count_cons_self] at hpoints
      have hwhole : ∀ c ∈ whole, isAsciiDigit c = true := fun c hc =>
        (hchars c (by simp [hc])).resolve_right fun heq =>
          List.count_eq_zero.1 (by omega : whole.count '.' = 0) (heq ▸ hc)
      have hpart : ∀ c ∈ part, isAsciiDigit c = true := fun c hc =>
        (hchars c (by simp [hc])).resolve_right fun heq =>
          List.count_eq_zero.1 (by omega : part.count '.' = 0) (heq ▸ hc)
      by_cases hempty : part = []
      · subst hempty
        have hne : whole ≠ [] := by
          rintro rfl
          exact hpoint digit hdigit (by simpa using hmem)
        exact .inr ⟨whole, rfl, hne, hwhole⟩
      · exact .inl (.inr ⟨whole, part, rfl, hwhole, hempty, hpart⟩)
    · refine .inl (.inl ⟨List.ne_nil_of_mem hmem, fun c hc => ?_⟩)
      exact (hchars c hc).resolve_right fun heq => hcut (heq ▸ hc)
  · rintro ((⟨hne, hdigits⟩ | ⟨whole, part, rfl, hwhole, hne, hpart⟩) | ⟨whole, rfl, hne, hwhole⟩)
    · obtain ⟨c, hc⟩ := List.exists_mem_of_ne_nil cs hne
      exact ⟨⟨by rw [hcount hdigits]; omega, c, hc, hdigits c hc⟩, fun c hc => .inl (hdigits c hc)⟩
    · obtain ⟨c, hc⟩ := List.exists_mem_of_ne_nil part hne
      refine ⟨⟨?_, c, by simp [hc], hpart c hc⟩, fun c hc => ?_⟩
      · rw [List.count_append, List.count_cons_self, hcount hwhole, hcount hpart]
      · rcases List.mem_append.1 hc with hc | hc
        · exact .inl (hwhole c hc)
        · exact (List.mem_cons.1 hc).symm.imp_left (hpart c)
    · obtain ⟨c, hc⟩ := List.exists_mem_of_ne_nil whole hne
      refine ⟨⟨?_, c, by simp [hc], hwhole c hc⟩, fun c hc => ?_⟩
      · rw [List.count_append, hcount hwhole]
        decide
      · rw [List.mem_append, List.mem_singleton] at hc
        exact hc.imp_left (hwhole c)

theorem isIdentifierChars_iff :
    isIdentifierChars cs = true ↔ cs ∈ identifier := by
  rw [identifier, mem_oneOf_mul_iff]
  cases cs with
  | nil =>
      simp [isIdentifierChars]
  | cons c cs =>
      simp [isIdentifierChars, mem_kstar_oneOf]

theorem mem_time_iff :
    cs ∈ time L ↔ ∃ n ∈ L, cs = n ++ ['s'] ∨ cs = n ++ ['m', 's'] := by
  rw [time, mul_add, Language.mem_add, mem_mul_singleton_iff, mem_mul_singleton_iff,
    ← exists_or]
  simp only [and_or_left]

/-- The unit of a time can be told from its number. -/
theorem isTime_iff :
    isTime cs = true ↔ cs ∈ time looseNumber := by
  simp only [mem_time_iff, ← isNumber_iff]
  constructor
  · intro h
    unfold isTime at h
    split at h
    · next n hcs =>
        exact ⟨n.reverse, h, .inr (by rw [← List.reverse_inj, hcs]; simp)⟩
    · next n _ hcs =>
        exact ⟨n.reverse, h, .inl (by rw [← List.reverse_inj, hcs]; simp)⟩
    · cases h
  · rintro ⟨n, hn, rfl | rfl⟩
    · have hunit : ∀ m, n.reverse ≠ 'm' :: m := by
        intro m hm
        have hmem : 'm' ∈ n := by
          rw [← List.mem_reverse, hm]
          exact List.mem_cons_self
        simp only [isNumber, Bool.and_eq_true, List.all_eq_true] at hn
        exact absurd (hn.2 _ hmem) (by decide)
      rw [isTime, List.reverse_append, List.reverse_singleton, List.singleton_append]
      split
      · next m heq =>
          exact absurd (List.cons.inj heq).2 (hunit m)
      · next m _ heq =>
          rwa [← (List.cons.inj heq).2, List.reverse_reverse]
      · next hnone =>
          exact absurd rfl (hnone _)
    · simpa [isTime] using hn

theorem mem_timing_iff :
    cs ∈ timing ↔ cs ∈ identifier ∨ ∃ keyword ∈ identifier, ∃ arguments,
      (∀ c ∈ arguments, isArgumentChar c = true) ∧
        cs = keyword ++ '(' :: (arguments ++ [')']) := by
  rw [timing, Language.mem_add, mem_mul_singleton_iff]
  refine or_congr_right ⟨?_, ?_⟩
  · rintro ⟨front, hfront, rfl⟩
    obtain ⟨start, hstart, arguments, harguments, rfl⟩ := Language.mem_mul.1 hfront
    obtain ⟨keyword, hkeyword, rfl⟩ := mem_mul_singleton_iff.1 hstart
    exact ⟨keyword, hkeyword, arguments, mem_kstar_oneOf.1 harguments, by simp⟩
  · rintro ⟨keyword, hkeyword, arguments, harguments, rfl⟩
    exact ⟨keyword ++ ['('] ++ arguments, Language.mem_mul.2 ⟨keyword ++ ['('],
      mem_mul_singleton_iff.2 ⟨keyword, hkeyword, rfl⟩, arguments,
      mem_kstar_oneOf.2 harguments, rfl⟩, by simp⟩

/-- The check for timings accepts exactly those of the grammar. -/
theorem isTiming_iff :
    isTiming cs = true ↔ cs ∈ timing := by
  have hopen {ds : List Char} (hds : isIdentifierChars ds = true) : '(' ∉ ds := by
    intro hmem
    have hname : isIdentifier (String.ofList ds) = true := by
      rwa [isIdentifier, String.toList_ofList]
    obtain ⟨-, -, -, -, hchars⟩ := exists_of_isIdentifier hname
    exact absurd (hchars '(' (by rwa [String.toList_ofList])) (by decide)
  simp only [mem_timing_iff, ← isIdentifierChars_iff]
  constructor
  · intro h
    unfold isTiming at h
    split at h
    · exact .inl h
    · next keyword rest hsplit =>
        obtain ⟨rfl, -⟩ := Text.splitFirst_eq_some_iff.1 hsplit
        split at h
        · next arguments hrest =>
            rw [Bool.and_eq_true, List.all_eq_true] at h
            rw [List.reverse_eq_cons_iff] at hrest
            exact .inr ⟨keyword, h.1, arguments.reverse,
              fun c hc => h.2 c (List.mem_reverse.1 hc), by rw [hrest]⟩
        · cases h
  · rintro (h | ⟨keyword, hkeyword, arguments, harguments, rfl⟩)
    · rw [isTiming, Text.splitFirst_eq_none_iff.2 (hopen h)]
      exact h
    · rw [isTiming, Text.splitFirst_append (hopen hkeyword)]
      simpa [hkeyword] using harguments

/-- The check for counts accepts the loose ones. -/
theorem isIterations_iff :
    isIterations (String.ofList cs) = true ↔ cs ∈ count looseNumber := by
  rw [isIterations, Bool.or_eq_true, decide_eq_true_eq, String.toList_ofList, isNumber_iff, count,
    Language.mem_add]
  refine or_congr_left ?_
  rw [← String.toList_inj, String.toList_ofList]
  rfl

end Words

section Shorthand

variable {L : Language Char} {a : Animation} {value : String}

/-- Whether the words of an animation are of the languages of their places. -/
structure Follows (L : Language Char) (a : Animation) : Prop where
  name : a.name.toList ∈ identifier
  duration : a.duration.toList ∈ time L
  easing : ∀ word ∈ a.easing, word.toList ∈ timing
  iterations : ∀ word ∈ a.iterations, word.toList ∈ count L

/-- An animation is accepted exactly if it follows the grammar with loose numbers. -/
theorem wellFormed_iff_follows :
    a.WellFormed ↔ a.Follows looseNumber := by
  have hiterations (word : String) :
      isIterations word = true ↔ word.toList ∈ count looseNumber := by
    rw [← isIterations_iff, String.ofList_toList]
  constructor
  · intro h
    exact ⟨isIdentifierChars_iff.1 h.name, isTime_iff.1 h.duration,
      fun word hword => isTiming_iff.1 (h.easing word hword),
      fun word hword => (hiterations word).1 (h.iterations word hword)⟩
  · intro h
    exact ⟨isIdentifierChars_iff.2 h.name, isTime_iff.2 h.duration,
      fun word hword => isTiming_iff.2 (h.easing word hword),
      fun word hword => (hiterations word).2 (h.iterations word hword)⟩

theorem time_mono
    (hL : ∀ cs ∈ L, cs ∈ looseNumber) :
    ∀ cs ∈ time L, cs ∈ time looseNumber := by
  intro cs hcs
  obtain ⟨n, hn, hcs⟩ := mem_time_iff.1 hcs
  exact mem_time_iff.2 ⟨n, hL n hn, hcs⟩

theorem count_mono
    (hL : ∀ cs ∈ L, cs ∈ looseNumber) :
    ∀ cs ∈ count L, cs ∈ count looseNumber := by
  intro cs hcs
  exact hcs.imp_right fun hcs => hL cs hcs

theorem Follows.mono
    (h : a.Follows L)
    (hL : ∀ cs ∈ L, cs ∈ looseNumber) :
    a.Follows looseNumber :=
  ⟨h.name, time_mono hL _ h.duration, h.easing,
    fun word hword => count_mono hL _ (h.iterations word hword)⟩

theorem isBlank_of_isShorthandChar
    {c : Char}
    (hc : isShorthandChar c = true) :
    Text.isBlank c = false := by
  simp only [isShorthandChar, Bool.or_eq_true, decide_eq_true_eq] at hc
  rcases hc with (((hc | rfl) | rfl) | rfl) | rfl
  · exact isBlank_of_isIdentifierChar hc
  · decide
  · decide
  · decide
  · decide

/-- What can stand at a place of a shorthand is a word. -/
theorem isWord_of_mem
    (hL : ∀ cs ∈ L, cs ∈ looseNumber) :
    ∀ M ∈ [identifier, time L, timing, count L], ∀ cs ∈ M, IsWord cs := by
  have hword {cs : List Char} (hne : cs ≠ []) (hchars : ∀ c ∈ cs, isShorthandChar c = true) :
      IsWord cs :=
    ⟨hne, fun c hc => isBlank_of_isShorthandChar (hchars c hc)⟩
  simp only [List.forall_mem_cons, List.not_mem_nil, false_implies, implies_true, and_true]
  refine ⟨fun cs hcs => ?_, fun cs hcs => ?_, fun cs hcs => ?_, fun cs hcs => ?_⟩
  · rw [← isIdentifierChars_iff] at hcs
    exact hword (by rintro rfl; cases hcs) (isShorthandChar_of_isIdentifierChars hcs)
  · have hcs := isTime_iff.2 (time_mono hL cs hcs)
    exact hword (by rintro rfl; cases hcs) (isShorthandChar_of_isTime hcs)
  · rw [← isTiming_iff] at hcs
    exact hword (by rintro rfl; cases hcs) (isShorthandChar_of_isTiming hcs)
  · have hcs := isIterations_iff.2 (count_mono hL cs hcs)
    have hchars := isShorthandChar_of_isIterations hcs
    rw [String.toList_ofList] at hchars
    exact hword (by rintro rfl; exact absurd hcs (by decide)) hchars

/-- The parts of an animation are words, so that they can be told apart. -/
theorem WellFormed.isWord
    (h : a.WellFormed)
    {word : String}
    (hword : word ∈ a.words) :
    IsWord word.toList := by
  have hfollows := wellFormed_iff_follows.1 h
  have hplaces := isWord_of_mem (L := looseNumber) fun _ hcs => hcs
  simp only [List.forall_mem_cons, List.not_mem_nil, false_implies, implies_true, and_true]
    at hplaces
  simp only [words, List.mem_append, List.mem_cons, List.not_mem_nil, or_false,
    Option.mem_toList] at hword
  rcases hword with ((rfl | rfl) | heasing) | hiterations
  · exact hplaces.1 _ hfollows.name
  · exact hplaces.2.1 _ hfollows.duration
  · exact hplaces.2.2.1 _ (hfollows.easing word heasing)
  · exact hplaces.2.2.2 _ (hfollows.iterations word hiterations)

/-- The shorthands with numbers of a kind are those that are read as an animation with such
numbers. -/
theorem mem_shorthand_iff
    (hL : ∀ cs ∈ L, cs ∈ looseNumber)
    (value : String) :
    value.toList ∈ shorthand L ↔ ∃ a, read value = .ok a ∧ a.Follows L := by
  have hplaces := isWord_of_mem hL
  have hspaced {Ls : List (Language Char)} (hLs : Ls <+: [identifier, time L, timing, count L]) :
      value.toList ∈ spaced Ls ↔ List.Forall₂ (· ∈ ·) (Text.blankSeparated value.toList) Ls :=
    Text.mem_spaced_iff (fun M hM => hplaces M (hLs.subset hM)) _
  have hread (a : Animation) : read value = .ok a ∧ a.Follows L ↔
      a.Follows L ∧ a.words.map String.toList = Text.blankSeparated value.toList ∧
        (a.easing = none → a.iterations = none) := by
    constructor
    · rintro ⟨hok, hfollows⟩
      obtain ⟨-, hwords, horder⟩ := read_eq_ok_iff.1 hok
      refine ⟨hfollows, ?_, horder⟩
      rw [hwords, Text.words, List.map_map]
      exact List.map_id'' (fun _ => String.toList_ofList) _
    · rintro ⟨hfollows, hwords, horder⟩
      refine ⟨read_eq_ok_iff.2 ⟨wellFormed_iff_follows.2 (hfollows.mono hL), ?_, horder⟩, hfollows⟩
      rw [Text.words, ← hwords, List.map_map]
      exact (List.map_id'' (fun _ => String.ofList_toList) _).symm
  rw [shorthand, Language.mem_add, Language.mem_add, hspaced (by simp), hspaced (by simp),
    hspaced (by simp)]
  simp only [List.forall₂_cons_right_iff, List.forall₂_nil_right_iff, hread]
  constructor
  · rintro ((⟨name, -, hname, ⟨duration, -, hduration, rfl, rfl⟩, hcs⟩ |
      ⟨name, -, hname, ⟨duration, -, hduration, ⟨easing, -, heasing, rfl, rfl⟩, rfl⟩, hcs⟩) |
      ⟨name, -, hname, ⟨duration, -, hduration, ⟨easing, -, heasing,
        ⟨iterations, -, hiterations, rfl, rfl⟩, rfl⟩, rfl⟩, hcs⟩)
    · exact ⟨⟨.ofList name, .ofList duration, none, none⟩,
        ⟨by simpa, by simpa, by simp, by simp⟩, by simp [words, hcs], fun _ => rfl⟩
    · exact ⟨⟨.ofList name, .ofList duration, some (.ofList easing), none⟩,
        ⟨by simpa, by simpa, by simpa, by simp⟩, by simp [words, hcs], fun _ => rfl⟩
    · exact ⟨⟨.ofList name, .ofList duration, some (.ofList easing), some (.ofList iterations)⟩,
        ⟨by simpa, by simpa, by simpa, by simpa⟩, by simp [words, hcs], by simp⟩
  · rintro ⟨⟨name, duration, easing, iterations⟩, hfollows, hcs, horder⟩
    have hname := hfollows.name
    have hduration := hfollows.duration
    cases easing with
    | none =>
        obtain rfl : iterations = none := horder rfl
        exact .inl (.inl ⟨_, _, hname, ⟨_, _, hduration, rfl, rfl⟩, hcs.symm⟩)
    | some easing =>
        have heasing := hfollows.easing easing rfl
        cases iterations with
        | none =>
            exact .inl (.inr ⟨_, _, hname, ⟨_, _, hduration, ⟨_, _, heasing, rfl, rfl⟩, rfl⟩,
              hcs.symm⟩)
        | some iterations =>
            have hiterations := hfollows.iterations iterations rfl
            exact .inr ⟨_, _, hname, ⟨_, _, hduration, ⟨_, _, heasing,
              ⟨_, _, hiterations, rfl, rfl⟩, rfl⟩, rfl⟩, hcs.symm⟩

/-- Whether no number of an animation ends in its point. -/
structure EndsInDigits (a : Animation) : Prop where
  seconds : ¬ ".s".toList <:+ a.duration.toList
  milliseconds : ¬ ".ms".toList <:+ a.duration.toList
  iterations : ∀ word ∈ a.iterations, ¬ ".".toList <:+ word.toList

/-- A loose number is a number exactly if no point ends it. -/
theorem mem_number_iff_of_looseNumber
    {cs : List Char} :
    cs ∈ number ↔ cs ∈ looseNumber ∧ ¬ ['.'] <:+ cs := by
  have hpoint {ds : List Char} (hds : ∀ c ∈ ds, isAsciiDigit c = true) :
      ds.getLast? ≠ some '.' :=
    fun hlast => absurd (hds '.' (List.mem_of_getLast? hlast)) (by decide)
  rw [List.singleton_suffix_iff_getLast?_eq_some, looseNumber, Language.mem_add]
  constructor
  · intro hcs
    refine ⟨.inl hcs, ?_⟩
    rcases mem_number_iff.1 hcs with ⟨-, hdigits⟩ | ⟨whole, part, rfl, -, hne, hpart⟩
    · exact hpoint hdigits
    · obtain ⟨c, rest, rfl⟩ := List.exists_cons_of_ne_nil hne
      rw [List.getLast?_append_cons, List.getLast?_cons_cons]
      exact hpoint hpart
  · rintro ⟨hnumber | hpointed, hlast⟩
    · exact hnumber
    · obtain ⟨whole, rfl, -⟩ := mem_pointedNumber_iff.1 hpointed
      exact absurd List.getLast?_concat hlast

theorem mem_looseNumber_of_number :
    ∀ cs ∈ number, cs ∈ looseNumber :=
  fun _ hcs => (mem_number_iff_of_looseNumber.1 hcs).1

theorem mem_time_number_iff
    {cs : List Char} :
    cs ∈ time number ↔
      cs ∈ time looseNumber ∧ ¬ ".s".toList <:+ cs ∧ ¬ ".ms".toList <:+ cs := by
  have hseconds : ".s".toList = ['.'] ++ ['s'] := rfl
  have hmilliseconds : ".ms".toList = ['.'] ++ ['m', 's'] := rfl
  rw [hseconds, hmilliseconds]
  simp only [mem_time_iff]
  constructor
  · rintro ⟨n, hn, hcs⟩
    have hloose := mem_number_iff_of_looseNumber.1 hn
    refine ⟨⟨n, hloose.1, hcs⟩, ?_⟩
    rcases hcs with rfl | rfl
    · refine ⟨by rw [List.suffix_append_self_iff]; exact hloose.2, fun hsuffix => ?_⟩
      -- A number has no letter in it.
      have hletter : ['.', 'm'] <:+ n := List.suffix_append_self_iff.1 hsuffix
      have hnumber := isNumber_iff.2 hloose.1
      simp only [isNumber, Bool.and_eq_true, List.all_eq_true] at hnumber
      exact absurd (hnumber.2 'm' (hletter.subset (by simp))) (by decide)
    · refine ⟨fun hsuffix => ?_, by rw [List.suffix_append_self_iff]; exact hloose.2⟩
      have hsplit : n ++ ['m', 's'] = (n ++ ['m']) ++ ['s'] := by simp
      rw [hsplit, List.suffix_append_self_iff, List.singleton_suffix_iff_getLast?_eq_some,
        List.getLast?_concat] at hsuffix
      simp at hsuffix
  · rintro ⟨⟨n, hn, hcs⟩, hs, hms⟩
    refine ⟨n, mem_number_iff_of_looseNumber.2 ⟨hn, fun hpoint => ?_⟩, hcs⟩
    rcases hcs with rfl | rfl
    · exact hs (List.suffix_append_self_iff.2 hpoint)
    · exact hms (List.suffix_append_self_iff.2 hpoint)

theorem mem_count_number_iff
    {cs : List Char} :
    cs ∈ count number ↔ cs ∈ count looseNumber ∧ ¬ ".".toList <:+ cs := by
  have hpoint : ".".toList = ['.'] := rfl
  rw [count, count, Language.mem_add, Language.mem_add, mem_number_iff_of_looseNumber, or_and_right,
    hpoint]
  refine or_congr_left ⟨fun hcs => ⟨hcs, ?_⟩, And.left⟩
  obtain rfl : cs = "infinite".toList := hcs
  decide

/-- Following the grammar strictly means that no number ends in its point. -/
theorem follows_number_iff :
    a.Follows number ↔ a.Follows looseNumber ∧ a.EndsInDigits := by
  constructor
  · intro h
    obtain ⟨hduration, hseconds, hmilliseconds⟩ := mem_time_number_iff.1 h.duration
    have hiterations := fun word hword => mem_count_number_iff.1 (h.iterations word hword)
    exact ⟨⟨h.name, hduration, h.easing, fun word hword => (hiterations word hword).1⟩,
      hseconds, hmilliseconds, fun word hword => (hiterations word hword).2⟩
  · rintro ⟨h, hdigits⟩
    exact ⟨h.name, mem_time_number_iff.2 ⟨h.duration, hdigits.seconds, hdigits.milliseconds⟩,
      h.easing, fun word hword =>
        mem_count_number_iff.2 ⟨h.iterations word hword, hdigits.iterations word hword⟩⟩

/-- A text is read as an animation exactly if it is a shorthand in which a number may end in its
point. Exactly those are shorthands in the strict sense that are read as an animation none of whose
numbers ends so. -/
theorem read_accepts_shorthands
    (value : String) :
    ((∃ a, read value = .ok a) ↔ value.toList ∈ shorthand looseNumber) ∧
      (value.toList ∈ shorthand number ↔ ∃ a, read value = .ok a ∧ a.EndsInDigits) := by
  have hfollows {a : Animation} (hread : read value = .ok a) : a.Follows looseNumber :=
    wellFormed_iff_follows.1 (read_eq_ok_iff.1 hread).1
  constructor
  · rw [mem_shorthand_iff fun _ hcs => hcs]
    exact exists_congr fun a => (and_iff_left_of_imp hfollows).symm
  · rw [mem_shorthand_iff mem_looseNumber_of_number]
    refine exists_congr fun a => and_congr_right fun hread => ?_
    rw [follows_number_iff, and_iff_right (hfollows hread)]

/-- A duration whose number ends in its point is taken. -/
theorem read_takes_pointed_duration :
    read "fade 1.s" = .ok ⟨"fade", "1.s", none, none⟩ ∧
      "fade 1.s".toList ∉ shorthand number := by
  have hread : read "fade 1.s" = .ok ⟨"fade", "1.s", none, none⟩ := by
    decide +kernel
  refine ⟨hread, ?_⟩
  rw [mem_shorthand_iff mem_looseNumber_of_number]
  rintro ⟨a, ha, hfollows⟩
  obtain rfl := Except.ok.inj (hread.symm.trans ha)
  exact (follows_number_iff.1 hfollows).2.seconds (by decide)

end Shorthand

section RoundTrip

/-- The characters that mean something else in a stylesheet or in markup. -/
def foreignChars : List Char := ['{', '}', ';', '<', '>', '"', '\'', '\\', '/', '*']

theorem not_mem_foreignChars
    {c : Char}
    (hc : isShorthandChar c = true) :
    c ∉ foreignChars := by
  have hforeign : foreignChars.all (fun c => !isShorthandChar c) = true := by decide
  intro hmem
  have hnot := List.all_eq_true.1 hforeign c hmem
  simp [hc] at hnot

/-- An animation that was read is written as the words of its text with single spaces between them.
Reading this gives the animation again, and it has no character with a meaning of its own. -/
theorem read_text_of_read
    {value : String}
    {a : Animation}
    (hread : read value = .ok a) :
    a.text = Text.join " " (Text.words value) ∧ read a.text = .ok a ∧
      ∀ c ∈ a.text.toList, c ∉ foreignChars := by
  obtain ⟨hformed, hwords, horder⟩ := read_eq_ok_iff.1 hread
  refine ⟨by rw [text, hwords], read_eq_ok_iff.2 ⟨hformed, ?_, horder⟩, ?_⟩
  · rw [text, Text.words_join fun word hword => hformed.isWord hword]
  · exact hformed.forall_mem_text (by decide) not_mem_foreignChars

/-- A shorthand with a timing function and white space of many kinds. -/
def spacedShorthand : String := "\u2003pulse\t 0.5s\u00a0steps(4,end)\n\u3000.5 "

theorem read_text_of_read_spacedShorthand :
    read spacedShorthand = .ok ⟨"pulse", "0.5s", some "steps(4,end)", some ".5"⟩ ∧
      read "pulse 0.5s steps(4,end) .5" =
        .ok ⟨"pulse", "0.5s", some "steps(4,end)", some ".5"⟩ := by
  have hread : read spacedShorthand = .ok ⟨"pulse", "0.5s", some "steps(4,end)", some ".5"⟩ := by
    decide +kernel
  exact ⟨hread, (read_text_of_read hread).2.1⟩

end RoundTrip

end Animation

end BlockMarkup
