import BlockMarkup.Proofs.Text.Blank
import BlockMarkup.Proofs.Text.Place
import Mathlib.Computability.Language

/-!
# Words

The words of a text are its pieces between white space that are not empty. Here they are found
again in texts that are put together from words and white space. With that, a list of languages
stands for the texts with one word of each language, in order, and any white space around them: a
text is one of these exactly if its words are such words (`mem_spaced_iff`).
-/

namespace BlockMarkup.Text

/-- Whether a text is a word: not empty, and without white space. -/
structure IsWord (cs : List Char) : Prop where
  nonempty : cs ≠ []
  chars : ∀ c ∈ cs, isBlank c = false

theorem splitAt_of_neg
    {p : Char → Bool}
    {as : List Char}
    (has : ∀ a ∈ as, p a = false) :
    splitAt p as = [as] := by
  induction as with
  | nil =>
      rfl
  | cons a as ih =>
      rw [List.forall_mem_cons] at has
      exact splitAt_cons_of_neg has.1 (ih has.2)

/-- A text that does not hold a separator is the first piece. -/
theorem splitAt_append_of_neg
    {p : Char → Bool}
    {as : List Char}
    (has : ∀ a ∈ as, p a = false)
    {c : Char}
    (hc : p c = true)
    (rest : List Char) :
    splitAt p (as ++ c :: rest) = as :: splitAt p rest := by
  rw [splitAt_append_of_pos hc, splitAt_of_neg has, List.singleton_append]

section BlankSeparated

variable {word before rest : List Char} {c : Char}

theorem blankSeparated_cons_of_isBlank
    (hc : isBlank c = true)
    (cs : List Char) :
    blankSeparated (c :: cs) = blankSeparated cs := by
  simp [blankSeparated, splitAt, hc]

theorem blankSeparated_append_cons
    (hc : isBlank c = true)
    (cs rest : List Char) :
    blankSeparated (cs ++ c :: rest) = blankSeparated cs ++ blankSeparated rest := by
  rw [blankSeparated, splitAt_append_of_pos hc, List.filter_append]
  rfl

theorem blankSeparated_append_of_isBlank
    (hbefore : ∀ c ∈ before, isBlank c = true)
    (cs : List Char) :
    blankSeparated (before ++ cs) = blankSeparated cs := by
  induction before with
  | nil =>
      rfl
  | cons c before ih =>
      rw [List.forall_mem_cons] at hbefore
      rw [List.cons_append, blankSeparated_cons_of_isBlank hbefore.1, ih hbefore.2]

theorem blankSeparated_eq_nil
    (hbefore : ∀ c ∈ before, isBlank c = true) :
    blankSeparated before = [] := by
  rw [← List.append_nil before, blankSeparated_append_of_isBlank hbefore]
  rfl

/-- A word in front of white space, or in front of nothing, is the first word. -/
theorem blankSeparated_append
    (hword : IsWord word)
    (hrest : ∀ c ∈ rest.head?, isBlank c = true) :
    blankSeparated (word ++ rest) = word :: blankSeparated rest := by
  cases rest with
  | nil =>
      simp [blankSeparated, splitAt_of_neg hword.chars, hword.nonempty, splitAt]
  | cons c rest =>
      have hc := hrest c rfl
      rw [blankSeparated_cons_of_isBlank hc, blankSeparated, splitAt_append_of_neg hword.chars hc,
        List.filter_cons_of_pos (by simp [hword.nonempty]), blankSeparated]

theorem blankSeparated_word
    (hword : IsWord word) :
    blankSeparated word = [word] := by
  have happend : blankSeparated (word ++ []) = [word] := blankSeparated_append hword (by simp)
  rwa [List.append_nil] at happend

/-- A text that is not all white space begins with a word behind white space. -/
theorem exists_word
    {cs : List Char}
    (hcs : ¬ ∀ c ∈ cs, isBlank c = true) :
    ∃ before word rest, cs = before ++ (word ++ rest) ∧ (∀ c ∈ before, isBlank c = true) ∧
      IsWord word ∧ ∀ c ∈ rest.head?, isBlank c = true := by
  refine ⟨cs.takeWhile isBlank, (cs.dropWhile isBlank).takeWhile (!isBlank ·),
    (cs.dropWhile isBlank).dropWhile (!isBlank ·), ?_, fun c hc => List.mem_takeWhile_imp hc,
    ⟨?_, fun c hc => ?_⟩, fun c hc => ?_⟩
  · rw [List.takeWhile_append_dropWhile, List.takeWhile_append_dropWhile]
  · cases hdrop : cs.dropWhile isBlank with
    | nil =>
        exact absurd (List.dropWhile_eq_nil_iff.1 hdrop) hcs
    | cons first others =>
        have hfirst := List.head?_dropWhile_not isBlank cs
        rw [hdrop] at hfirst
        have hfirst : isBlank first = false := by simpa using hfirst
        simp [hfirst]
  · simpa using List.mem_takeWhile_imp hc
  · have hhead := List.head?_dropWhile_not (!isBlank ·) (cs.dropWhile isBlank)
    rw [Option.mem_def.1 hc] at hhead
    simpa using hhead

/-- A text without words is blank. -/
theorem blankSeparated_eq_nil_iff
    {cs : List Char} :
    blankSeparated cs = [] ↔ ∀ c ∈ cs, isBlank c = true := by
  refine ⟨fun hnil => ?_, blankSeparated_eq_nil⟩
  by_contra hcs
  obtain ⟨before, word, rest, rfl, hbefore, hword, hrest⟩ := exists_word hcs
  rw [blankSeparated_append_of_isBlank hbefore, blankSeparated_append hword hrest] at hnil
  cases hnil

/-- How a text begins that has a first word. -/
theorem exists_of_blankSeparated_eq_cons
    {cs : List Char}
    {words : List (List Char)}
    (hcs : blankSeparated cs = word :: words) :
    ∃ before rest, cs = before ++ (word ++ rest) ∧ (∀ c ∈ before, isBlank c = true) ∧
      IsWord word ∧ (∀ c ∈ rest.head?, isBlank c = true) ∧ blankSeparated rest = words := by
  have hblank : ¬ ∀ c ∈ cs, isBlank c = true := by
    rw [← blankSeparated_eq_nil_iff, hcs]
    exact List.cons_ne_nil word words
  obtain ⟨before, first, rest, rfl, hbefore, hfirst, hrest⟩ := exists_word hblank
  rw [blankSeparated_append_of_isBlank hbefore, blankSeparated_append hfirst hrest,
    List.cons.injEq] at hcs
  obtain ⟨rfl, hwords⟩ := hcs
  exact ⟨before, rest, rfl, hbefore, hfirst, hrest, hwords⟩

/-- Words behind single spaces are found again. -/
theorem blankSeparated_flatMap
    {words : List (List Char)}
    (hwords : ∀ w ∈ word :: words, IsWord w) :
    blankSeparated (word ++ words.flatMap (' ' :: ·)) = word :: words := by
  induction words generalizing word with
  | nil =>
      rw [List.forall_mem_singleton] at hwords
      rw [List.flatMap_nil, List.append_nil, blankSeparated_word hwords]
  | cons next words ih =>
      rw [List.forall_mem_cons] at hwords
      have hspace : isBlank ' ' = true := by decide
      rw [List.flatMap_cons, List.cons_append,
        blankSeparated_append hwords.1 (by simpa using hspace),
        blankSeparated_cons_of_isBlank hspace, ih hwords.2]

/-- Words that are joined with single spaces are found again. -/
theorem words_join
    {ws : List String}
    (hws : ∀ w ∈ ws, IsWord w.toList) :
    words (join " " ws) = ws := by
  fun_induction join " " ws with
  | case1 =>
      rfl
  | case2 w =>
      rw [List.forall_mem_singleton] at hws
      rw [words, blankSeparated_word hws, List.map_singleton, String.ofList_toList]
  | case3 w ws hmore ih =>
      rw [List.forall_mem_cons] at hws
      have hspace : isBlank ' ' = true := by decide
      have hlist : (w ++ " " ++ join " " ws).toList = w.toList ++ ' ' :: (join " " ws).toList := by
        simp
      rw [words, hlist, blankSeparated_append hws.1 (by simpa using hspace),
        blankSeparated_cons_of_isBlank hspace, List.map_cons, String.ofList_toList]
      exact congrArg _ (ih hws.2)

end BlankSeparated

section Spaced

open Computability

/-- The texts of one character of a class. -/
def oneOf (p : Char → Bool) : Language Char := {cs | ∃ c, p c = true ∧ cs = [c]}

theorem mem_kstar_oneOf
    {p : Char → Bool}
    {cs : List Char} :
    cs ∈ (oneOf p)∗ ↔ ∀ c ∈ cs, p c = true := by
  rw [Language.mem_kstar]
  constructor
  · rintro ⟨pieces, rfl, hpieces⟩ c hc
    obtain ⟨piece, hpiece, hmem⟩ := List.mem_flatten.1 hc
    obtain ⟨d, hd, rfl⟩ := hpieces piece hpiece
    rwa [List.mem_singleton.1 hmem]
  · intro hcs
    refine ⟨cs.map ([·]), List.flatMap_singleton' cs |>.symm, fun piece hpiece => ?_⟩
    obtain ⟨c, hc, rfl⟩ := List.mem_map.1 hpiece
    exact ⟨c, hcs c hc, rfl⟩

theorem mem_oneOf_mul_iff
    {p : Char → Bool}
    {L : Language Char}
    {cs : List Char} :
    cs ∈ oneOf p * L ↔ ∃ c rest, p c = true ∧ rest ∈ L ∧ cs = c :: rest := by
  rw [Language.mem_mul]
  constructor
  · rintro ⟨-, ⟨c, hc, rfl⟩, rest, hrest, rfl⟩
    exact ⟨c, rest, hc, hrest, rfl⟩
  · rintro ⟨c, rest, hc, hrest, rfl⟩
    exact ⟨[c], ⟨c, hc, rfl⟩, rest, hrest, rfl⟩

/-- One or more characters of a class. -/
theorem mem_oneOf_mul_kstar
    {p : Char → Bool}
    {cs : List Char} :
    cs ∈ oneOf p * (oneOf p)∗ ↔ cs ≠ [] ∧ ∀ c ∈ cs, p c = true := by
  rw [mem_oneOf_mul_iff]
  cases cs with
  | nil =>
      simp
  | cons c cs =>
      simp [mem_kstar_oneOf]

/-- A text of the grammar, with the white space in front of its first word. -/
theorem mem_blank_mul_mul_iff
    {L M : Language Char}
    {cs : List Char} :
    cs ∈ (oneOf isBlank)∗ * L * M ↔
      ∃ before word rest, (∀ c ∈ before, isBlank c = true) ∧ word ∈ L ∧ rest ∈ M ∧
        cs = before ++ (word ++ rest) := by
  simp only [Language.mem_mul, mem_kstar_oneOf]
  constructor
  · rintro ⟨-, ⟨before, hbefore, word, hword, rfl⟩, rest, hrest, rfl⟩
    exact ⟨before, word, rest, hbefore, hword, hrest, List.append_assoc before word rest⟩
  · rintro ⟨before, word, rest, hbefore, hword, hrest, rfl⟩
    exact ⟨before ++ word, ⟨before, hbefore, word, hword, rfl⟩, rest, hrest,
      List.append_assoc before word rest⟩

/-- The texts with one word of each language, in order. There is white space between them, and there
may be some before and behind them. -/
def spaced : List (Language Char) → Language Char
  | [] => (oneOf isBlank)∗
  | [L] => (oneOf isBlank)∗ * L * (oneOf isBlank)∗
  | L :: Ls => (oneOf isBlank)∗ * L * (oneOf isBlank * spaced Ls)

/-- A text belongs to a list of languages of words exactly if its words do. -/
theorem mem_spaced_iff
    {Ls : List (Language Char)}
    (hLs : ∀ L ∈ Ls, ∀ word ∈ L, IsWord word)
    (cs : List Char) :
    cs ∈ spaced Ls ↔ List.Forall₂ (· ∈ ·) (blankSeparated cs) Ls := by
  induction Ls using spaced.induct generalizing cs with
  | case1 =>
      rw [spaced, mem_kstar_oneOf, List.forall₂_nil_right_iff, blankSeparated_eq_nil_iff]
  | case2 L =>
      rw [List.forall_mem_singleton] at hLs
      simp only [spaced, mem_blank_mul_mul_iff, mem_kstar_oneOf, List.forall₂_cons_right_iff,
        List.forall₂_nil_right_iff]
      constructor
      · rintro ⟨before, word, rest, hbefore, hword, hrest, rfl⟩
        refine ⟨word, [], hword, rfl, ?_⟩
        rw [blankSeparated_append_of_isBlank hbefore,
          blankSeparated_append (hLs word hword) fun c hc => hrest c (List.mem_of_mem_head? hc),
          blankSeparated_eq_nil hrest]
      · rintro ⟨word, -, hword, rfl, hcs⟩
        obtain ⟨before, rest, rfl, hbefore, -, -, hrest⟩ := exists_of_blankSeparated_eq_cons hcs
        exact ⟨before, word, rest, hbefore, hword, blankSeparated_eq_nil_iff.1 hrest, rfl⟩
  | case3 L Ls hne ih =>
      rw [List.forall_mem_cons] at hLs
      simp only [spaced.eq_3 _ _ hne, mem_blank_mul_mul_iff, mem_oneOf_mul_iff,
        List.forall₂_cons_right_iff]
      constructor
      · rintro ⟨before, word, -, hbefore, hword, ⟨c, rest, hc, hrest, rfl⟩, rfl⟩
        refine ⟨word, _, hword, (ih hLs.2 rest).1 hrest, ?_⟩
        rw [blankSeparated_append_of_isBlank hbefore,
          blankSeparated_append (hLs.1 word hword) (by simpa using hc),
          blankSeparated_cons_of_isBlank hc]
      · rintro ⟨word, words, hword, hwords, hcs⟩
        obtain ⟨before, rest, rfl, hbefore, -, hblank, rfl⟩ := exists_of_blankSeparated_eq_cons hcs
        cases rest with
        | nil =>
            -- Nothing is left for the languages behind the first.
            rw [blankSeparated_eq_nil (by simp), List.forall₂_nil_left_iff] at hwords
            exact absurd hwords hne
        | cons c rest =>
            have hc := hblank c rfl
            rw [blankSeparated_cons_of_isBlank hc, ← ih hLs.2] at hwords
            exact ⟨before, word, c :: rest, hbefore, hword, ⟨c, rest, hc, hwords, rfl⟩, rfl⟩

end Spaced

end BlockMarkup.Text
