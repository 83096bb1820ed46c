import BlockMarkup.Text.Blank
import Mathlib.Data.List.TakeWhile
import Mathlib.Tactic

/-!
# Cutting texts

What is left of a text without the white space around it, and what stands before and behind the
first occurrence of a character, said by how the text is put together.
-/

namespace BlockMarkup.Text

theorem exists_dropBlankEnd_append
    (cs : List Char) :
    ∃ blanks, cs = dropBlankEnd cs ++ blanks ∧ ∀ c ∈ blanks, isBlank c = true := by
  refine ⟨(cs.reverse.takeWhile isBlank).reverse, ?_, fun c hc => ?_⟩
  · rw [dropBlankEnd, ← List.reverse_append, List.takeWhile_append_dropWhile,
      List.reverse_reverse]
  · exact List.mem_takeWhile_imp (List.mem_reverse.1 hc)

/-- A text is what is left of it with white space around. -/
theorem exists_append_dropBlank_append
    (cs : List Char) :
    ∃ before after, cs = before ++ (dropBlank cs ++ after) ∧
      (∀ c ∈ before, isBlank c = true) ∧ ∀ c ∈ after, isBlank c = true := by
  obtain ⟨after, hafter, hblank⟩ := exists_dropBlankEnd_append (cs.dropWhile isBlank)
  refine ⟨cs.takeWhile isBlank, after, ?_, fun c hc => List.mem_takeWhile_imp hc, hblank⟩
  rw [dropBlank, ← hafter, List.takeWhile_append_dropWhile]

theorem dropBlank_eq_nil_iff
    (cs : List Char) :
    dropBlank cs = [] ↔ ∀ c ∈ cs, isBlank c = true := by
  constructor
  · intro hnil
    obtain ⟨before, after, hcs, hbefore, hafter⟩ := exists_append_dropBlank_append cs
    rw [hcs, hnil, List.nil_append, List.forall_mem_append]
    exact ⟨hbefore, hafter⟩
  · intro hblank
    rw [dropBlank, List.dropWhile_eq_nil_iff.2 hblank]
    rfl

/-- White space around a text does not matter. -/
theorem dropBlank_padded
    {before after : List Char}
    (hbefore : ∀ c ∈ before, isBlank c = true)
    (hafter : ∀ c ∈ after, isBlank c = true)
    (cs : List Char) :
    dropBlank (before ++ (cs ++ after)) = dropBlank cs := by
  have hend : ∀ ds : List Char, dropBlankEnd (ds ++ after) = dropBlankEnd ds := by
    intro ds
    rw [dropBlankEnd, List.reverse_append,
      List.dropWhile_append_of_pos fun c hc => hafter c (List.mem_reverse.1 hc), dropBlankEnd]
  rw [dropBlank, List.dropWhile_append_of_pos hbefore, List.dropWhile_append]
  split
  · next hempty =>
      rw [dropBlank, List.isEmpty_iff.1 hempty, List.dropWhile_eq_nil_iff.2 hafter]
  · rw [hend, dropBlank]

/-- A text without white space at its ends stays as it is. -/
theorem dropBlank_eq_self
    {cs : List Char}
    (hfirst : ∀ c ∈ cs.head?, isBlank c = false)
    (hlast : ∀ c ∈ cs.getLast?, isBlank c = false) :
    dropBlank cs = cs := by
  have hstop : ∀ ds : List Char, (∀ c ∈ ds.head?, isBlank c = false) →
      ds.dropWhile isBlank = ds := by
    intro ds hds
    cases ds with
    | nil => rfl
    | cons c ds => simp [hds c rfl]
  have hreverse : ∀ c ∈ cs.reverse.head?, isBlank c = false := by
    rwa [List.head?_reverse]
  rw [dropBlank, dropBlankEnd, hstop cs hfirst, hstop _ hreverse, List.reverse_reverse]

theorem dropBlank_of_not_blank
    {cs : List Char}
    (hcs : ∀ c ∈ cs, isBlank c = false) :
    dropBlank cs = cs := by
  refine dropBlank_eq_self (fun c hc => ?_) fun c hc => ?_
  · exact hcs c (List.mem_of_mem_head? hc)
  · exact hcs c (List.mem_of_getLast? hc)

theorem splitFirst_append
    {c : Char}
    {before : List Char}
    (hbefore : c ∉ before)
    (after : List Char) :
    splitFirst c (before ++ c :: after) = some (before, after) := by
  induction before with
  | nil =>
      simp [splitFirst]
  | cons d before ih =>
      rw [List.mem_cons, not_or] at hbefore
      simp [splitFirst, Ne.symm hbefore.1, ih hbefore.2]

/-- A text is cut at the first occurrence of a character. -/
theorem splitFirst_eq_some_iff
    {c : Char}
    {cs before after : List Char} :
    splitFirst c cs = some (before, after) ↔ cs = before ++ c :: after ∧ c ∉ before := by
  refine ⟨fun h => ?_, fun h => h.1 ▸ splitFirst_append h.2 after⟩
  induction cs generalizing before with
  | nil =>
      simp [splitFirst] at h
  | cons d cs ih =>
      by_cases hd : d = c
      · simp only [splitFirst, hd, if_true, Option.some.injEq, Prod.mk.injEq] at h
        simp [← h.1, ← h.2, hd]
      · simp only [splitFirst, hd, if_false, Option.map_eq_some_iff, Prod.mk.injEq] at h
        obtain ⟨⟨before', after'⟩, hsplit, rfl, rfl⟩ := h
        obtain ⟨rfl, hbefore⟩ := ih hsplit
        exact ⟨rfl, by simp [Ne.symm hd, hbefore]⟩

/-- A text without the character is not cut. -/
theorem splitFirst_eq_none_iff
    {c : Char}
    {cs : List Char} :
    splitFirst c cs = none ↔ c ∉ cs := by
  induction cs with
  | nil =>
      simp [splitFirst]
  | cons d cs ih =>
      by_cases hd : d = c
      · simp [splitFirst, hd]
      · simp [splitFirst, hd, ih, Ne.symm hd]

theorem forall_mem_join
    {P : Char → Prop}
    (hspace : P ' ')
    {words : List String}
    (hwords : ∀ word ∈ words, ∀ c ∈ word.toList, P c) :
    ∀ c ∈ (join " " words).toList, P c := by
  fun_induction join " " words with
  | case1 =>
      exact List.forall_mem_nil _
  | case2 word =>
      exact hwords word List.mem_cons_self
  | case3 word words _ ih =>
      rw [List.forall_mem_cons] at hwords
      rw [String.toList_append, String.toList_append, List.forall_mem_append,
        List.forall_mem_append]
      exact ⟨⟨hwords.1, by simpa using hspace⟩, ih hwords.2⟩

end BlockMarkup.Text
