import BlockMarkup.Animation
import BlockMarkup.Proofs.Text.Blank
import BlockMarkup.Proofs.Token.Written

/-!
# What an animation is made of

An animation that was read has the words of its text, each in the form that its place asks for. So
it has no characters but those of identifiers, points, commas and parentheses.
-/

namespace BlockMarkup

namespace Animation

structure WellFormed (a : Animation) : Prop where
  name : isIdentifier a.name = true
  duration : isTime a.duration.toList = true
  easing : ∀ word ∈ a.easing, isTiming word.toList = true
  iterations : ∀ word ∈ a.iterations, isIterations word = true

/-- An animation is read off exactly the texts that have its words, each in the form that its place
asks for. There is no number of iterations without an easing. -/
theorem read_eq_ok_iff
    {value : String}
    {a : Animation} :
    read value = .ok a ↔
      a.WellFormed ∧ a.words = Text.words value ∧ (a.easing = none → a.iterations = none) := by
  constructor
  · intro h
    unfold read at h
    split at h
    · next name duration rest hwords =>
        rw [hwords]
        split at h
        · cases h
        · next hfew =>
          split at h
          · cases h
          · next hname =>
            split at h
            · cases h
            · next hduration =>
              have hname : isIdentifier name = true := by simpa using hname
              have hduration : isTime duration.toList = true := by simpa using hduration
              cases rest with
              | nil =>
                  cases h
                  exact ⟨⟨hname, hduration, by simp, by simp⟩, rfl, fun _ => rfl⟩
              | cons easing rest =>
                  dsimp only at h
                  split at h
                  · cases h
                  · next heasing =>
                      have heasing : isTiming easing.toList = true := by simpa using heasing
                      cases rest with
                      | nil =>
                          cases h
                          exact ⟨⟨hname, hduration, by simpa using heasing, by simp⟩, rfl,
                            fun _ => rfl⟩
                      | cons iterations rest =>
                          obtain rfl : rest = [] := by simpa using hfew
                          dsimp only at h
                          split at h
                          · cases h
                          · next hiterations =>
                              cases h
                              exact ⟨⟨hname, hduration, by simpa using heasing,
                                by simpa using hiterations⟩, rfl, by simp⟩
    · cases h
  · obtain ⟨name, duration, easing, iterations⟩ := a
    rintro ⟨h, hwords, hplaces⟩
    rw [read, ← hwords]
    cases easing with
    | none =>
        obtain rfl : iterations = none := hplaces rfl
        simp [words, h.name, h.duration]
    | some easing =>
        have heasing := h.easing easing rfl
        cases iterations with
        | none =>
            simp [words, h.name, h.duration, heasing]
        | some iterations =>
            simp [words, h.name, h.duration, heasing, h.iterations iterations rfl]

/-- An animation that is read is well-formed, and has the words of its text. -/
theorem wellFormed_of_read
    {value : String}
    {a : Animation}
    (h : read value = .ok a) :
    a.WellFormed ∧ a.words = Text.words value :=
  (read_eq_ok_iff.1 h).imp_right And.left

/-- The characters of shorthands. -/
def isShorthandChar (c : Char) : Bool :=
  isIdentifierChar c || c = '.' || c = ',' || c = '(' || c = ')'

theorem isShorthandChar_of_isIdentifierChars
    {cs : List Char}
    (h : isIdentifierChars cs = true) :
    ∀ c ∈ cs, isShorthandChar c = true := by
  cases cs with
  | nil =>
      cases h
  | cons first rest =>
      simp only [isIdentifierChars, Bool.and_eq_true, List.all_eq_true] at h
      intro c hc
      rcases List.mem_cons.1 hc with rfl | hc
      · simp [isShorthandChar, isIdentifierChar, isAsciiAlphanumeric, h.1]
      · simp [isShorthandChar, h.2 c hc]

theorem isShorthandChar_of_isNumber
    {cs : List Char}
    (h : isNumber cs = true) :
    ∀ c ∈ cs, isShorthandChar c = true := by
  intro c hc
  simp only [isNumber, Bool.and_eq_true, List.all_eq_true, Bool.or_eq_true,
    decide_eq_true_eq] at h
  rcases h.2 c hc with hdigit | rfl
  · simp [isShorthandChar, isIdentifierChar, isAsciiAlphanumeric, hdigit]
  · decide

theorem isShorthandChar_of_isTime
    {cs : List Char}
    (h : isTime cs = true) :
    ∀ c ∈ cs, isShorthandChar c = true := by
  intro c hc
  rw [← List.mem_reverse] at hc
  unfold isTime at h
  split at h
  · next number hcs =>
      rw [hcs, List.mem_cons, List.mem_cons, ← List.mem_reverse] at hc
      rcases hc with rfl | rfl | hc
      · decide
      · decide
      · exact isShorthandChar_of_isNumber h c hc
  · next number _ hcs =>
      rw [hcs, List.mem_cons, ← List.mem_reverse] at hc
      rcases hc with rfl | hc
      · decide
      · exact isShorthandChar_of_isNumber h c hc
  · cases h

/-- A timing is made of characters that mean nothing in a stylesheet. -/
theorem isShorthandChar_of_isTiming
    {cs : List Char}
    (h : isTiming cs = true) :
    ∀ c ∈ cs, isShorthandChar c = true := by
  unfold isTiming at h
  split at h
  · exact isShorthandChar_of_isIdentifierChars h
  · next keyword rest hsplit =>
      obtain ⟨rfl, -⟩ := Text.splitFirst_eq_some_iff.1 hsplit
      split at h
      · next arguments hrest =>
          rw [Bool.and_eq_true, List.all_eq_true] at h
          rw [List.reverse_eq_cons_iff] at hrest
          intro c hc
          rw [hrest, List.mem_append, List.mem_cons, List.mem_append, List.mem_reverse,
            List.mem_singleton] at hc
          rcases hc with hc | rfl | hc | rfl
          · exact isShorthandChar_of_isIdentifierChars h.1 c hc
          · decide
          · have hargument := h.2 c hc
            simp only [isArgumentChar, Bool.or_eq_true, decide_eq_true_eq] at hargument
            rcases hargument with ((hc | rfl) | rfl) | rfl
            · simp [isShorthandChar, isIdentifierChar, hc]
            · decide
            · decide
            · decide
          · decide
      · cases h

theorem isShorthandChar_of_isIterations
    {word : String}
    (h : isIterations word = true) :
    ∀ c ∈ word.toList, isShorthandChar c = true := by
  rw [isIterations, Bool.or_eq_true, decide_eq_true_eq] at h
  rcases h with rfl | h
  · exact List.all_eq_true.1 (by decide)
  · exact isShorthandChar_of_isNumber h

theorem WellFormed.isShorthandChar_of_mem_words
    {a : Animation}
    (h : a.WellFormed)
    {word : String}
    (hword : word ∈ a.words) :
    ∀ c ∈ word.toList, isShorthandChar c = true := by
  simp only [words, List.mem_append, List.mem_cons, List.not_mem_nil, or_false,
    Option.mem_toList] at hword
  rcases hword with ((rfl | rfl) | heasing) | hiterations
  · exact isShorthandChar_of_isIdentifierChars h.name
  · exact isShorthandChar_of_isTime h.duration
  · exact isShorthandChar_of_isTiming (h.easing word heasing)
  · exact isShorthandChar_of_isIterations (h.iterations word hiterations)

/-- What holds of a space and of the characters of shorthands holds of every character of an
animation as it is written. -/
theorem WellFormed.forall_mem_text
    {a : Animation}
    (h : a.WellFormed)
    {P : Char → Prop}
    (hspace : P ' ')
    (hchar : ∀ {c}, isShorthandChar c = true → P c) :
    ∀ c ∈ a.text.toList, P c :=
  Text.forall_mem_join hspace fun _ hword c hc =>
    hchar (h.isShorthandChar_of_mem_words hword c hc)

end Animation

end BlockMarkup
