import BlockMarkup.Position
import BlockMarkup.Text.Blank
import Mathlib.Tactic

/-!
# Places in a text

Positions are kept by counting characters one by one. Here such a count is compared with what it is
for: going to a line of the text and to a column of that line. A piece that stands behind the
characters that were counted is found at the line and the column of the count, and counting on moves
strictly forward.
-/

namespace BlockMarkup

namespace Position

/-- The order of positions in a text. -/
def Before (p q : Position) : Prop := p.line < q.line ∨ p.line = q.line ∧ p.column < q.column

theorem Before.trans
    {p q r : Position}
    (hpq : p.Before q)
    (hqr : q.Before r) :
    p.Before r := by
  unfold Before at *
  omega

theorem before_next
    (p : Position)
    (c : Char) :
    p.Before (p.next c) := by
  unfold Before next
  split
  · exact Or.inl (Nat.lt_succ_self p.line)
  · exact Or.inr ⟨rfl, Nat.lt_succ_self p.column⟩

/-- A text leads further, unless it is empty. -/
theorem before_after
    (p : Position)
    {cs : List Char}
    (hcs : cs ≠ []) :
    p.Before (p.after cs) := by
  induction cs generalizing p with
  | nil =>
      exact absurd rfl hcs
  | cons c cs ih =>
      rw [after_cons]
      by_cases hnil : cs = []
      · rw [hnil, after_nil]
        exact p.before_next c
      · exact (p.before_next c).trans (ih (p.next c) hnil)

/-- Counting from a later line ends as much later. -/
theorem after_line
    (line column : Nat)
    (cs : List Char) :
    (⟨line + 1, column⟩ : Position).after cs =
      ⟨((⟨line, column⟩ : Position).after cs).line + 1,
        ((⟨line, column⟩ : Position).after cs).column⟩ := by
  induction cs generalizing line column with
  | nil =>
      rfl
  | cons c cs ih =>
      by_cases hc : c = '\n' <;> simp [next, hc, ih]

/-- Counting from a later column ends in a later column, unless a line has ended on the way. -/
theorem after_column
    (line column : Nat)
    (cs : List Char) :
    (⟨line, column + 1⟩ : Position).after cs =
      if '\n' ∈ cs then (⟨line, column⟩ : Position).after cs
      else ⟨((⟨line, column⟩ : Position).after cs).line,
        ((⟨line, column⟩ : Position).after cs).column + 1⟩ := by
  induction cs generalizing line column with
  | nil =>
      rfl
  | cons c cs ih =>
      by_cases hc : c = '\n'
      · simp [next, hc]
      · have hc' : '\n' ≠ c := fun h => hc h.symm
        simp [next, hc, hc', ih]

end Position

namespace Text

/-- What stands at a place of a text, up to the end of its line. Lines and columns count from
one. -/
def lineFrom
    (text : List Char)
    (place : Position) : Option (List Char) :=
  match place with
  | ⟨line + 1, column + 1⟩ =>
    ((splitAt (· = '\n') text)[line]?).bind fun l =>
      if column ≤ l.length then some (l.drop column) else none
  | _ => none

/-- Whether a piece is found at a place of a text. -/
def Finds
    (text : List Char)
    (place : Position)
    (piece : List Char) : Prop :=
  ∃ rest, lineFrom text place = some rest ∧ piece <+: rest

/-- Whether a piece stands behind the characters that a position counts. -/
def Stands
    (text : List Char)
    (place : Position)
    (piece : List Char) : Prop :=
  ∃ before after, text = before ++ (piece ++ after) ∧ place = Position.start.after before

theorem splitAt_ne_nil
    (p : Char → Bool)
    (cs : List Char) :
    splitAt p cs ≠ [] := by
  cases cs with
  | nil =>
      simp [splitAt]
  | cons c cs =>
      rw [splitAt]
      split
      · simp
      · split <;> simp

theorem splitAt_cons_of_neg
    {p : Char → Bool}
    {c : Char}
    (hc : p c = false)
    {cs first : List Char}
    {rest : List (List Char)}
    (hcs : splitAt p cs = first :: rest) :
    splitAt p (c :: cs) = (c :: first) :: rest := by
  simp [splitAt, hc, hcs]

theorem head?_splitAt
    (p : Char → Bool)
    (cs : List Char) :
    (splitAt p cs).head? = some (cs.takeWhile fun c => !p c) := by
  induction cs with
  | nil =>
      rfl
  | cons c cs ih =>
      by_cases hc : p c = true
      · simp [splitAt, hc]
      · obtain ⟨rest, hrest⟩ := List.head?_eq_some_iff.1 ih
        simp [splitAt_cons_of_neg (Bool.not_eq_true _ ▸ hc) hrest, hc]

theorem splitAt_eq_singleton
    {c : Char}
    {cs : List Char}
    (hcs : c ∉ cs) :
    splitAt (· = c) cs = [cs] := by
  induction cs with
  | nil =>
      rfl
  | cons d cs ih =>
      rw [List.mem_cons, not_or] at hcs
      exact splitAt_cons_of_neg (decide_eq_false (Ne.symm hcs.1)) (ih hcs.2)

theorem splitAt_append_of_pos
    {p : Char → Bool}
    {c : Char}
    (hc : p c = true)
    (cs rest : List Char) :
    splitAt p (cs ++ c :: rest) = splitAt p cs ++ splitAt p rest := by
  induction cs with
  | nil =>
      simp [splitAt, hc]
  | cons d cs ih =>
      by_cases hd : p d = true
      · simp [splitAt, hd, ih]
      · have hneg : p d = false := Bool.not_eq_true _ ▸ hd
        obtain ⟨first, pieces, hcs⟩ := List.exists_cons_of_ne_nil (splitAt_ne_nil p cs)
        rw [hcs] at ih
        rw [List.cons_append, splitAt_cons_of_neg hneg ih, splitAt_cons_of_neg hneg hcs]
        rfl

theorem splitAt_append_cons
    (c : Char)
    (cs rest : List Char) :
    splitAt (· = c) (cs ++ c :: rest) = splitAt (· = c) cs ++ splitAt (· = c) rest :=
  splitAt_append_of_pos (decide_eq_true rfl) cs rest

theorem splitAt_append_of_not_mem
    {c : Char}
    {as : List Char}
    (has : c ∉ as)
    {cs first : List Char}
    {rest : List (List Char)}
    (hcs : splitAt (· = c) cs = first :: rest) :
    splitAt (· = c) (as ++ cs) = (as ++ first) :: rest := by
  induction as with
  | nil =>
      exact hcs
  | cons a as ih =>
      rw [List.mem_cons, not_or] at has
      exact splitAt_cons_of_neg (decide_eq_false (Ne.symm has.1)) (ih has.2)

/-- Pieces that end in a mark are split one after another. -/
theorem splitAt_flatMap_append
    (c : Char)
    (pieces : List (List Char))
    (rest : List Char) :
    splitAt (· = c) (pieces.flatMap (· ++ [c]) ++ rest) =
      pieces.flatMap (splitAt (· = c)) ++ splitAt (· = c) rest := by
  induction pieces with
  | nil =>
      rfl
  | cons piece pieces ih =>
      simp only [List.flatMap_cons, List.append_assoc, List.cons_append, List.nil_append,
        splitAt_append_cons, ih]

/-- Splitting loses nothing but the marks. -/
theorem flatMap_splitAt
    (c : Char)
    (cs : List Char) :
    (splitAt (· = c) cs).flatMap (· ++ [c]) = cs ++ [c] := by
  induction cs with
  | nil =>
      rfl
  | cons d cs ih =>
      by_cases hd : d = c
      · simp [splitAt, hd, ih]
      · obtain ⟨first, pieces, hcs⟩ := List.exists_cons_of_ne_nil (splitAt_ne_nil (· = c) cs)
        rw [hcs] at ih
        rw [splitAt_cons_of_neg (decide_eq_false hd) hcs]
        simpa using ih

theorem infix_of_mem_splitAt
    {p : Char → Bool}
    {cs piece : List Char}
    (hpiece : piece ∈ splitAt p cs) :
    piece <:+: cs := by
  induction cs generalizing piece with
  | nil =>
      simpa [splitAt] using hpiece
  | cons c cs ih =>
      by_cases hc : p c = true
      · rw [splitAt, if_pos hc, List.mem_cons] at hpiece
        rcases hpiece with rfl | hpiece
        · exact List.nil_infix
        · exact List.infix_cons (ih hpiece)
      · obtain ⟨rest, hrest⟩ := List.head?_eq_some_iff.1 (head?_splitAt p cs)
        rw [splitAt_cons_of_neg (Bool.not_eq_true _ ▸ hc) hrest, List.mem_cons] at hpiece
        rcases hpiece with rfl | hpiece
        · have hfirst : cs.takeWhile (fun c => !p c) <+: cs := List.takeWhile_prefix _
          exact (List.cons_prefix_cons.2 ⟨rfl, hfirst⟩).isInfix
        · exact List.infix_cons (ih (hrest ▸ List.mem_cons_of_mem _ hpiece))

/-- What a count knows: how many lines have ended, and how much of the current one has been read. -/
theorem exists_line_after
    (before after : List Char) :
    ∃ line read, Position.start.after before = ⟨line + 1, read.length + 1⟩ ∧
      (splitAt (· = '\n') (before ++ after))[line]? =
        some (read ++ after.takeWhile (· ≠ '\n')) ∧
      (line = 0 ↔ '\n' ∉ before) := by
  induction before with
  | nil =>
      have hhead := head?_splitAt (· = '\n') after
      rw [List.head?_eq_getElem?] at hhead
      exact ⟨0, [], rfl, by simpa using hhead, by simp⟩
  | cons c before ih =>
      obtain ⟨line, read, hplace, hline, hzero⟩ := ih
      by_cases hc : c = '\n'
      · refine ⟨line + 1, read, ?_, ?_, by simp [hc]⟩
        · have hnext : Position.start.next c = ⟨1 + 1, 1⟩ := by
            simp [Position.next, hc, Position.start]
          have hstart : (⟨1, 1⟩ : Position).after before = ⟨line + 1, read.length + 1⟩ := hplace
          rw [Position.after_cons, hnext, Position.after_line, hstart]
        · simpa [splitAt, hc] using hline
      · have hc' : '\n' ≠ c := fun h => hc h.symm
        have hnext : Position.start.next c = ⟨1, 1 + 1⟩ := by
          simp [Position.next, hc, Position.start]
        have hstart : (⟨1, 1⟩ : Position).after before = ⟨line + 1, read.length + 1⟩ := hplace
        obtain ⟨first, rest, hsplit⟩ :=
          List.exists_cons_of_ne_nil (splitAt_ne_nil (· = '\n') (before ++ after))
        have hcons : splitAt (· = '\n') (c :: (before ++ after)) = (c :: first) :: rest :=
          splitAt_cons_of_neg (by simpa using hc) hsplit
        rw [hsplit] at hline
        rw [Position.after_cons, hnext, Position.after_column, hstart, List.cons_append, hcons]
        by_cases hmem : '\n' ∈ before
        · -- the character is on a line that has ended
          have hne : line ≠ 0 := fun h => hzero.1 h hmem
          obtain ⟨k, rfl⟩ := Nat.exists_eq_succ_of_ne_zero hne
          refine ⟨k + 1, read, by rw [if_pos hmem], by simpa using hline, by simp [hmem]⟩
        · -- the character is the first of the current line
          have hline0 : line = 0 := hzero.2 hmem
          subst hline0
          refine ⟨0, c :: read, by rw [if_neg hmem]; rfl, ?_, by simp [hmem, hc']⟩
          have hfirst : first = read ++ after.takeWhile (· ≠ '\n') := by simpa using hline
          simp [hfirst]

/-- Going to the line and the column of a count leads behind the characters that were counted. -/
theorem lineFrom_after
    (before after : List Char) :
    lineFrom (before ++ after) (Position.start.after before) =
      some (after.takeWhile (· ≠ '\n')) := by
  obtain ⟨line, read, hplace, hline, -⟩ := exists_line_after before after
  rw [hplace, lineFrom, hline]
  simp

/-- A piece of one line is found where it stands. -/
theorem Stands.finds
    {text piece : List Char}
    {place : Position}
    (h : Stands text place piece)
    (hpiece : '\n' ∉ piece) :
    Finds text place piece := by
  obtain ⟨before, after, rfl, rfl⟩ := h
  refine ⟨_, lineFrom_after before (piece ++ after), ?_⟩
  have hall : ∀ c ∈ piece, decide (c ≠ '\n') = true := by
    intro c hc
    exact decide_eq_true fun h => hpiece (h ▸ hc)
  rw [List.takeWhile_append_of_pos hall]
  exact List.prefix_append _ _

/-- Where a text stands, its beginning does. -/
theorem Stands.of_prefix
    {text piece part : List Char}
    {place : Position}
    (h : Stands text place piece)
    (hpart : part <+: piece) :
    Stands text place part := by
  obtain ⟨before, after, rfl, rfl⟩ := h
  obtain ⟨more, rfl⟩ := hpart
  exact ⟨before, more ++ after, by rw [List.append_assoc], rfl⟩

end Text

end BlockMarkup
