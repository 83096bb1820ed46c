import BlockMarkup.Proofs.Token.Tiling

/-!
# Where nodes start

Nodes start at tags and at runs of text. From the tokens alone one can tell the place of each start
and, if nothing but closing braces stands before it on its line, the width of that line: a line
break makes the line fresh, a change of indentation says its new width, and the first start uses it
up (`Token.starts`).

Here this is compared with the source. What stands before a start on its line, and the margin of
that line, can be read off the source without knowing how it was scanned (`Text.MarksAt`), and the
two agree on every source. Besides, the starts come one after another, each at a later place.
-/

namespace BlockMarkup

namespace Text

/-- The characters of a text behind its last line feed. -/
def lastLine (cs : List Char) : List Char := (cs.reverse.takeWhile (· ≠ '\n')).reverse

theorem lastLine_append
    (cs : List Char)
    {ds : List Char}
    (hds : '\n' ∉ ds) :
    lastLine (cs ++ ds) = lastLine cs ++ ds := by
  have hall : ∀ d ∈ ds.reverse, decide (d ≠ '\n') = true := by
    intro d hd
    exact decide_eq_true fun h => hds (h ▸ List.mem_reverse.1 hd)
  rw [lastLine, List.reverse_append, List.takeWhile_append_of_pos hall, List.reverse_append,
    List.reverse_reverse, lastLine]

theorem lastLine_append_cons
    (cs : List Char)
    {ds : List Char}
    (hds : '\n' ∉ ds) :
    lastLine (cs ++ '\n' :: ds) = ds := by
  have hbreak : lastLine (cs ++ ['\n']) = [] := by
    simp [lastLine]
  have hsplit : cs ++ '\n' :: ds = (cs ++ ['\n']) ++ ds := by
    simp
  rw [hsplit, lastLine_append _ hds, hbreak, List.nil_append]

/-- A text is on its first line, or its last line follows a line feed. -/
theorem eq_lastLine_or
    (cs : List Char) :
    '\n' ∉ lastLine cs ∧ (cs = lastLine cs ∨ ∃ above, cs = above ++ '\n' :: lastLine cs) := by
  induction cs using List.reverseRecOn with
  | nil =>
      simp [lastLine]
  | append_singleton cs c ih =>
      by_cases hc : c = '\n'
      · subst hc
        rw [lastLine_append_cons cs List.not_mem_nil]
        exact ⟨List.not_mem_nil, Or.inr ⟨cs, rfl⟩⟩
      · have hmem : '\n' ∉ [c] := by
          simpa using fun h => hc h.symm
        obtain ⟨hline, hcs⟩ := ih
        rw [lastLine_append cs hmem]
        refine ⟨by simpa [hline] using fun h => hc h.symm, ?_⟩
        rcases hcs with hcs | ⟨above, hcs⟩
        · exact Or.inl (by rw [← hcs])
        · refine Or.inr ⟨above, ?_⟩
          nth_rewrite 1 [hcs]
          simp

theorem length_splitAt
    (c : Char)
    (cs : List Char) :
    (splitAt (· = c) cs).length = cs.count c + 1 := by
  induction cs with
  | nil =>
      rfl
  | cons d cs ih =>
      by_cases hd : d = c
      · simp [splitAt, hd, ih]
      · obtain ⟨first, pieces, hcs⟩ := List.exists_cons_of_ne_nil (splitAt_ne_nil (· = c) cs)
        rw [splitAt_cons_of_neg (decide_eq_false hd) hcs, List.count_cons_of_ne hd, ← ih, hcs]
        rfl

/-- The line on which a text goes on. -/
theorem getElem?_splitAt_append
    (before after : List Char) :
    (splitAt (· = '\n') (before ++ after))[before.count '\n']? =
      some (lastLine before ++ after.takeWhile (· ≠ '\n')) := by
  obtain ⟨rest, hrest⟩ := List.head?_eq_some_iff.1 (head?_splitAt (· = '\n') after)
  obtain ⟨hline, hbefore⟩ := eq_lastLine_or before
  have hgoes := splitAt_append_of_not_mem hline hrest
  have hcount : (lastLine before).count '\n' = 0 := List.count_eq_zero.2 hline
  rcases hbefore with hbefore | ⟨above, hbefore⟩
  · rw [← hbefore] at hgoes hcount
    rw [hgoes, hcount, ← hbefore]
    simp
  · have hlength : before.count '\n' = (splitAt (· = '\n') above).length := by
      rw [hbefore, length_splitAt, List.count_append, List.count_cons_self, hcount]
    have hsplit : before ++ after = above ++ '\n' :: (lastLine before ++ after) := by
      nth_rewrite 1 [hbefore]
      simp
    rw [hlength, hsplit, splitAt_append_cons, hgoes, List.getElem?_append_right (Nat.le_refl _)]
    simp

/-- Whether a marker is the one of a node at a place of a text, where lines and columns count from
one. A node begins its line if only spaces, tabs, carriage returns and closing braces stand before
it, and then its marker is the width of the spaces and tabs that the line begins with. No such
character begins the node itself. -/
def MarksAt
    (text : List Char)
    (place : Position)
    (marker : Option Nat) : Prop :=
  1 ≤ place.line ∧ 1 ≤ place.column ∧
    ∃ line, (splitAt (· = '\n') text)[place.line - 1]? = some line ∧
    (∀ width, marker = some width ↔
      (∀ c ∈ line.take (place.column - 1), c ∈ [' ', '\t', '\r', '}']) ∧
        width = marginWidth (line.takeWhile fun c => c = ' ' || c = '\t')) ∧
    ∃ c, (line.drop (place.column - 1)).head? = some c ∧ c ∉ [' ', '\t', '\r', '}']

end Text

namespace Token

/-- The characters that may stand on a line before the first node. -/
def isOpening (c : Char) : Bool := [' ', '\t', '\r', '}'].contains c

/-- Where a token stands: among nodes, behind the mark of a class or an id, or in an attribute
list. -/
inductive Zone where
  | nodes
  | name
  | list
  deriving DecidableEq

/-- The places at which nodes start, each with the line marker that the tokens before it give:
`width` is the width of the current line, and `fresh` tells that no node has started on it. -/
def starts (zone : Zone) (width : Nat) (fresh : Bool) : List Token → List (Position × Option Nat)
  | [] => []
  | t :: rest =>
    match zone, t.kind with
    | .name, _ => starts .nodes width fresh rest
    | .list, .parenClose => starts .nodes width fresh rest
    | .list, _ => starts .list width fresh rest
    | .nodes, .endOfInput => []
    | .nodes, .newline => starts .nodes width true rest
    | .nodes, .indent | .nodes, .dedent => starts .nodes t.width true rest
    | .nodes, .dot | .nodes, .hash => starts .name width fresh rest
    | .nodes, .parenOpen => starts .list width fresh rest
    | .nodes, .braceOpen => starts .nodes width false rest
    | .nodes, .identifier | .nodes, .textRun =>
      (t.position, if fresh then some width else none) :: starts .nodes width false rest
    | .nodes, _ => starts .nodes width fresh rest

section Tokens

variable (width : Nat) (fresh : Bool)

theorem starts_decorations
    (c : Cursor)
    (more : List Token) :
    starts .nodes width fresh ((decorations c).1 ++ more) = starts .nodes width fresh more := by
  fun_induction decorations c with
  | case1 mark first rest position hmark place name tokens stop hstop ih =>
      rw [hstop] at ih
      by_cases hdot : mark = '.' <;> simpa [starts, single, hdot] using ih
  | case2 mark first rest position hmark =>
      rfl
  | case3 c hshort =>
      rfl

theorem starts_list_cons
    {t : Token}
    (hkind : t.kind ≠ .parenClose)
    (tokens : List Token) :
    starts .list width fresh (t :: tokens) = starts .list width fresh tokens := by
  cases hlist : t.kind <;> simp_all [starts]

/-- No node starts in an attribute list. -/
theorem starts_attributeList
    {opened : Position}
    {c stop : Cursor}
    {tokens : List Token}
    (hread : attributeList opened c = .ok (tokens, stop))
    (more : List Token) :
    starts .list width fresh (tokens ++ more) = starts .nodes width fresh more := by
  fun_induction attributeList opened c generalizing tokens stop with
  | case1 => simp at hread
  | case2 =>
      rename_i ih
      exact ih hread
  | case3 rest position hclose =>
      simp only [Except.ok.injEq, Prod.mk.injEq] at hread
      obtain ⟨rfl, rfl⟩ := hread
      simp [starts, single]
  | case4 =>
      rename_i ih
      obtain ⟨found, hfound, rfl⟩ := exists_of_map_followedBy hread
      rw [List.cons_append, starts_list_cons width fresh (by simp [single])]
      exact ih hfound
  | case5 =>
      rename_i ih
      obtain ⟨found, hfound, rfl⟩ := exists_of_map_followedBy hread
      rw [List.cons_append, starts_list_cons width fresh (by simp [single])]
      exact ih hfound
  | case6 => simp at hread
  | case7 first rest position _ _ _ _ _ value literalStop hliteral ih =>
      obtain ⟨found, hfound, rfl⟩ := exists_of_map_followedBy hread
      rw [List.cons_append, starts_list_cons width fresh (by simp)]
      exact ih hfound
  | case8 =>
      rename_i ih
      obtain ⟨found, hfound, rfl⟩ := exists_of_map_followedBy hread
      rw [List.cons_append, starts_list_cons width fresh (by simp)]
      exact ih hfound
  | case9 => simp at hread

/-- A header is one start, at its tag. -/
theorem starts_header
    {c stop : Cursor}
    {tokens : List Token}
    (hread : header c = .ok (tokens, stop))
    (more : List Token) :
    starts .nodes width fresh (tokens ++ more) =
      (c.position, if fresh then some width else none) :: starts .nodes width false more := by
  unfold header at hread
  simp only at hread
  split at hread
  · next list opened hopen =>
      cases hlist : attributeList opened ⟨list, opened.next '('⟩ with
      | error e =>
          simp [hlist, Except.map] at hread
      | ok read =>
          simp only [hlist, Except.map, Except.ok.injEq, Prod.mk.injEq] at hread
          obtain ⟨rfl, rfl⟩ := hread
          simp only [List.cons_append, List.append_assoc, starts, starts_decorations, single,
            starts_attributeList width false hlist]
  · simp only [Except.ok.injEq, Prod.mk.injEq] at hread
    obtain ⟨rfl, rfl⟩ := hread
    simp only [List.cons_append, starts, starts_decorations]

end Tokens

/-- Whether what is read between two cursors leaves a character on its last line that cannot stand
before the first node of a line. -/
def Cursor.Occupies (c stop : Cursor) : Prop :=
  ∃ above d behind, c.rest = above ++ d :: (behind ++ stop.rest) ∧ isOpening d = false ∧
    '\n' ∉ d :: behind

section Occupies

variable {c middle stop : Cursor}

theorem Cursor.Occupies.of_suffix
    (h : middle.Occupies stop)
    (hsuffix : middle.rest <:+ c.rest) :
    c.Occupies stop := by
  obtain ⟨above, d, behind, hrest, hd, hbehind⟩ := h
  obtain ⟨skipped, hskipped⟩ := hsuffix
  exact ⟨skipped ++ above, d, behind, by rw [← hskipped, hrest, List.append_assoc], hd, hbehind⟩

theorem occupies_of_rest
    {first : Char}
    (run : List Char)
    (hrest : c.rest = first :: (run ++ stop.rest))
    (hfirst : isOpening first = false ∧ first ≠ '\n')
    (hrun : ∀ d ∈ run, isOpening d = false ∧ d ≠ '\n') :
    c.Occupies stop := by
  refine ⟨[], first, run, hrest, hfirst.1, ?_⟩
  rw [List.mem_cons, not_or]
  exact ⟨fun h => hfirst.2 h.symm, fun h => (hrun _ h).2 rfl⟩

theorem isOpening_of_isNameChar
    {c : Char}
    (hc : isNameChar c = true) :
    isOpening c = false ∧ c ≠ '\n' := by
  constructor
  · by_contra hopening
    simp only [isOpening, Bool.not_eq_false, List.contains_eq_mem, decide_eq_true_eq, List.mem_cons,
      List.not_mem_nil, or_false] at hopening
    rcases hopening with rfl | rfl | rfl | rfl <;> exact absurd hc (by decide)
  · rintro rfl
    exact absurd hc (by decide)

theorem isOpening_of_isIdentifierChar
    {c : Char}
    (hc : isIdentifierChar c = true) :
    isOpening c = false ∧ c ≠ '\n' :=
  isOpening_of_isNameChar (isNameChar_of_isIdentifierChar hc)

/-- Decorations either take nothing or something that fills its line. -/
theorem decorations_occupies
    (c : Cursor) :
    (decorations c).2 = c ∨ c.Occupies (decorations c).2 := by
  fun_induction decorations c with
  | case1 mark first rest position hmark place name tokens stop hstop ih =>
      rw [hstop] at ih
      right
      have hsplit : first :: rest = name ++ rest.dropWhile isNameChar := by
        rw [List.cons_append, List.takeWhile_append_dropWhile]
      have hname : ∀ d ∈ name, isOpening d = false ∧ d ≠ '\n' := by
        intro d hd
        rcases List.mem_cons.1 hd with rfl | hd
        · exact isOpening_of_isNameChar (Bool.and_eq_true_iff.1 hmark).2
        · exact isOpening_of_isNameChar (List.mem_takeWhile_imp hd)
      have hfirst : isOpening mark = false ∧ mark ≠ '\n' := by
        simp only [Bool.and_eq_true, Bool.or_eq_true, decide_eq_true_eq] at hmark
        rcases hmark.1 with rfl | rfl <;> decide
      rcases ih with rfl | hmore
      · exact occupies_of_rest name (by rw [hsplit]) hfirst hname
      · refine hmore.of_suffix ?_
        rw [hsplit]
        exact ⟨mark :: name, rfl⟩
  | case2 mark first rest position hmark =>
      exact Or.inl rfl
  | case3 c hshort =>
      exact Or.inl rfl

/-- An attribute list ends with its parenthesis, so what follows does not open its line. -/
theorem attributeList_occupies
    {opened : Position}
    {tokens : List Token}
    (hread : attributeList opened c = .ok (tokens, stop)) :
    c.Occupies stop := by
  fun_induction attributeList opened c generalizing tokens stop with
  | case1 => simp at hread
  | case2 =>
      rename_i ih
      exact (ih hread).of_suffix (List.suffix_cons _ _)
  | case3 rest position hclose =>
      simp only [Except.ok.injEq, Prod.mk.injEq] at hread
      obtain ⟨rfl, rfl⟩ := hread
      exact occupies_of_rest [] rfl (by decide) (by simp)
  | case4 =>
      rename_i ih
      obtain ⟨found, hfound, rfl⟩ := exists_of_map_followedBy hread
      exact (ih hfound).of_suffix (List.suffix_cons _ _)
  | case5 =>
      rename_i ih
      obtain ⟨found, hfound, rfl⟩ := exists_of_map_followedBy hread
      exact (ih hfound).of_suffix (List.suffix_cons _ _)
  | case6 => simp at hread
  | case7 first rest position _ _ _ _ _ value literalStop hliteral ih =>
      obtain ⟨found, hfound, rfl⟩ := exists_of_map_followedBy hread
      obtain ⟨body, rfl, -, -⟩ := quotes_of_literal hliteral
      exact (ih hfound).of_suffix ⟨first :: (body ++ [first]), by simp⟩
  | case8 first rest position _ _ _ _ _ hstart name =>
      rename_i ih
      obtain ⟨found, hfound, rfl⟩ := exists_of_map_followedBy hread
      exact (ih hfound).of_suffix ((List.dropWhile_suffix _).trans (List.suffix_cons _ _))
  | case9 => simp at hread

/-- A header leaves its tag, a name or its closing parenthesis on the line where it ends. -/
theorem header_occupies
    {first : Char}
    {rest : List Char}
    {position : Position}
    {tokens : List Token}
    (hfirst : isIdentifierChar first = true)
    (hread : header ⟨first :: rest, position⟩ = .ok (tokens, stop)) :
    Cursor.Occupies ⟨first :: rest, position⟩ stop := by
  have htag : ∀ {d : Cursor}, d.rest = rest.dropWhile isIdentifierChar →
      Cursor.Occupies ⟨first :: rest, position⟩ d := by
    intro d hd
    refine occupies_of_rest (rest.takeWhile isIdentifierChar) ?_
      (isOpening_of_isIdentifierChar hfirst)
      fun e he => isOpening_of_isIdentifierChar (List.mem_takeWhile_imp he)
    rw [hd, List.takeWhile_append_dropWhile]
  have hspan : (Cursor.span ⟨first :: rest, position⟩ isIdentifierChar).2.rest =
      rest.dropWhile isIdentifierChar := by
    simp [Cursor.span, hfirst]
  have hsuffix :
      (Cursor.span ⟨first :: rest, position⟩ isIdentifierChar).2.rest <:+ first :: rest :=
    List.dropWhile_suffix _
  have hnames : Cursor.Occupies ⟨first :: rest, position⟩
      (decorations (Cursor.span ⟨first :: rest, position⟩ isIdentifierChar).2).2 := by
    rcases decorations_occupies (Cursor.span ⟨first :: rest, position⟩ isIdentifierChar).2
      with hsame | hmore
    · exact htag (by rw [hsame, hspan])
    · exact hmore.of_suffix hsuffix
  unfold header at hread
  simp only at hread
  split at hread
  · next list opened hopen =>
      cases hlist : attributeList opened ⟨list, opened.next '('⟩ with
      | error e =>
          simp [hlist, Except.map] at hread
      | ok read =>
          simp only [hlist, Except.map, Except.ok.injEq, Prod.mk.injEq] at hread
          obtain ⟨rfl, rfl⟩ := hread
          obtain ⟨above, d, behind, hrest, -, -⟩ := hnames
          rw [hopen] at hrest
          exact (attributeList_occupies hlist).of_suffix
            ⟨above ++ d :: (behind ++ ['(']), by rw [hrest]; simp⟩
  · simp only [Except.ok.injEq, Prod.mk.injEq] at hread
    obtain ⟨rfl, rfl⟩ := hread
    exact hnames

/-- A text run fills its line from where it starts. -/
theorem textRun_occupies
    {first : Char}
    (rest : List Char)
    (position : Position)
    (hopening : isOpening first = false)
    (hbrace : first ≠ '{')
    (hline : first ≠ '\n') :
    Cursor.Occupies ⟨first :: rest, position⟩ (textRun ⟨first :: rest, position⟩).2 := by
  have hclose : first ≠ '}' := by
    rintro rfl
    exact absurd hopening (by decide)
  have hsplit := textSpan_append (Text.isBlank first) rest
  refine ⟨[], first, (textSpan (Text.isBlank first) rest).1, ?_, hopening, ?_⟩
  · simp [textRun, textSpan, hbrace, hclose, hline, hsplit]
  · rw [List.mem_cons, not_or]
    exact ⟨fun h => hline h.symm, newline_not_mem_textSpan _ rest⟩

end Occupies

/-- Whether the characters ahead of a cursor, if there are any, begin a line of the source. -/
def Cursor.BeginsLine
    (c : Cursor)
    (source : List Char) : Prop :=
  ∃ before, source = before ++ c.rest ∧ c.position = Position.start.after before ∧
    (c.rest ≠ [] → Text.lastLine before = [])

theorem lastLine_splitLine
    (before : List Char)
    {cs : List Char}
    (hrest : (splitLine cs).2 ≠ []) :
    Text.lastLine (before ++ (splitLine cs).1) = [] := by
  fun_induction splitLine cs generalizing before with
  | case1 =>
      exact absurd rfl hrest
  | case2 cs =>
      exact Text.lastLine_append_cons before List.not_mem_nil
  | case3 c cs hc ih =>
      simpa using ih (before ++ [c]) hrest

theorem skipBlankLines_beginsLine
    {c : Cursor}
    {source : List Char}
    (h : c.BeginsLine source) :
    (skipBlankLines c).BeginsLine source := by
  have hline : ∀ {c : Cursor}, c.BeginsLine source →
      Cursor.BeginsLine ⟨(splitLine c.rest).2, c.position.after (splitLine c.rest).1⟩ source := by
    rintro c ⟨before, hsource, hposition, -⟩
    refine ⟨before ++ (splitLine c.rest).1, ?_, ?_, lastLine_splitLine before⟩
    · rw [List.append_assoc, splitLine_append, hsource]
    · rw [hposition, Position.after_append]
  fun_induction skipBlankLines c with
  | case1 c _ line rest hempty =>
      have hnil : (splitLine c.rest).2 = [] := List.isEmpty_iff.1 hempty
      have hend := hline h
      rw [hnil] at hend
      exact hend
  | case2 c _ line rest _ ih =>
      exact ih (hline h)
  | case3 =>
      exact h

end Token

namespace Scanner

open Token

/-- Whether `fresh` and the scanner's width are those of the place it has come to: nothing but
margin and closing braces stands before that place on its line, and the width is the one of the
line's margin. -/
def Tracks
    (source : List Char)
    (s : Scanner)
    (fresh : Bool) : Prop :=
  ∃ before, source = before ++ s.cursor.rest ∧ s.cursor.position = Position.start.after before ∧
    (s.cursor.rest ≠ [] →
      fresh = (Text.lastLine before).all isOpening ∧
        (fresh = true →
          s.lineWidth = marginWidth ((Text.lastLine before ++ s.cursor.rest).takeWhile isMargin)))

section Tracks

variable {source rest : List Char} {position : Position} {s : Scanner} {lineWidth : Nat}
  {scanFresh fresh : Bool} {c : Char}

/-- Moving past a character that may stand before the first node of a line. -/
theorem Tracks.opening
    (h : Tracks source ⟨⟨c :: rest, position⟩, lineWidth, scanFresh⟩ fresh)
    (hc : isOpening c = true)
    (scanFresh' : Bool) :
    Tracks source ⟨⟨rest, position.next c⟩, lineWidth, scanFresh'⟩ fresh := by
  obtain ⟨before, hsource, hposition, htracks⟩ := h
  obtain ⟨hfresh, hwidth⟩ := htracks (List.cons_ne_nil c rest)
  have hbreak : '\n' ∉ [c] := by
    intro hmem
    rw [← List.mem_singleton.1 hmem] at hc
    exact absurd hc (by decide)
  refine ⟨before ++ [c], by simpa using hsource, ?_, fun _ => ⟨?_, ?_⟩⟩
  · simp only at hposition
    rw [Position.after_append, ← hposition]
    rfl
  · rw [Text.lastLine_append before hbreak, List.all_append, hfresh]
    simp [hc]
  · rw [Text.lastLine_append before hbreak]
    simpa using hwidth

/-- Moving past something that no node of the line is first behind. -/
theorem Tracks.occupied
    {stop : Cursor}
    (h : s.Tracks source fresh)
    (hstop : stop.In source)
    (hoccupies : s.cursor.Occupies stop)
    (lineWidth : Nat)
    (scanFresh : Bool) :
    Tracks source ⟨stop, lineWidth, scanFresh⟩ false := by
  obtain ⟨before, hsource, -, -⟩ := h
  obtain ⟨before', hsource', hposition⟩ := hstop
  obtain ⟨above, d, behind, hrest, hd, hbreak⟩ := hoccupies
  have hbefore : before' = (before ++ above) ++ d :: behind := by
    have hsame : before' ++ stop.rest = ((before ++ above) ++ d :: behind) ++ stop.rest := by
      rw [← hsource', hsource, hrest]
      simp
    exact List.append_cancel_right hsame
  refine ⟨before', hsource', hposition, fun _ => ⟨?_, by simp⟩⟩
  rw [hbefore, Text.lastLine_append _ hbreak, List.all_append, List.all_cons, hd]
  simp

theorem takeWhile_isMargin_line
    (line cs : List Char) :
    (line ++ cs.takeWhile (· ≠ '\n')).takeWhile isMargin = (line ++ cs).takeWhile isMargin := by
  have hmargin : (fun d => decide (isMargin d = true ∧ decide (d ≠ '\n') = true)) = isMargin := by
    funext d
    by_cases hd : d = '\n'
    · subst hd
      rfl
    · simp [hd]
  rw [List.takeWhile_append, List.takeWhile_append, List.takeWhile_takeWhile, hmargin]

/-- The marker of a node at the scanner's place. -/
theorem Tracks.marksAt
    (h : s.Tracks source fresh)
    (hrest : s.cursor.rest = c :: rest)
    (hc : isOpening c = false)
    (hline : c ≠ '\n') :
    Text.MarksAt source s.cursor.position (if fresh then some s.lineWidth else none) := by
  obtain ⟨before, hsource, hposition, htracks⟩ := h
  rw [hrest] at hsource htracks
  obtain ⟨hfresh, hwidth⟩ := htracks (List.cons_ne_nil c rest)
  have hcolumn : (Position.behind before).column - 1 = (Text.lastLine before).length := by
    simp [Position.behind, Text.lastLine]
  have hfound := Text.getElem?_splitAt_append before (c :: rest)
  rw [← hsource] at hfound
  rw [hposition, Position.start_after]
  refine ⟨Nat.le_add_left 1 _, Nat.le_add_left 1 _, _, hfound, fun width => ?_, c, ?_, ?_⟩
  · have hmargin := takeWhile_isMargin_line (Text.lastLine before) (c :: rest)
    unfold isMargin at hmargin hwidth
    rw [hcolumn, List.take_left, hmargin]
    have hall : (∀ d ∈ Text.lastLine before, d ∈ [' ', '\t', '\r', '}']) ↔ fresh = true := by
      rw [hfresh, List.all_eq_true]
      simp only [isOpening, List.contains_iff_mem]
    rw [hall]
    cases fresh with
    | false =>
        simp
    | true =>
        rw [← hwidth rfl]
        simp [eq_comm]
  · rw [hcolumn, List.drop_left]
    simp [hline]
  · simpa [isOpening] using hc

/-- A line begins fresh, and the tokens of its margin say its width. -/
theorem beginLine_tracks
    {c : Cursor}
    (h : c.BeginsLine source)
    (lineWidth : Nat) :
    (beginLine c lineWidth).2.Tracks source true ∧
      ∀ more, starts .nodes lineWidth true ((beginLine c lineWidth).1 ++ more) =
        starts .nodes (beginLine c lineWidth).2.lineWidth true more := by
  obtain ⟨before, hsource, hposition, hline⟩ := skipBlankLines_beginsLine h
  unfold beginLine
  simp only
  split
  · next hempty =>
      rw [List.isEmpty_iff] at hempty
      exact ⟨⟨before, hsource, hposition, fun hrest => absurd hempty hrest⟩, fun more => rfl⟩
  · next hempty =>
      rw [List.isEmpty_iff] at hempty
      have hsplit : (skipBlankLines c).rest.takeWhile isMargin ++
          (skipBlankLines c).rest.dropWhile isMargin = (skipBlankLines c).rest :=
        List.takeWhile_append_dropWhile
      have hmargin : ∀ d ∈ (skipBlankLines c).rest.takeWhile isMargin,
          isOpening d = true ∧ d ≠ '\n' := by
        intro d hd
        have hd := List.mem_takeWhile_imp hd
        simp only [isMargin, Bool.or_eq_true, decide_eq_true_eq] at hd
        rcases hd with rfl | rfl <;> decide
      have hbreak : '\n' ∉ (skipBlankLines c).rest.takeWhile isMargin :=
        fun hmem => (hmargin _ hmem).2 rfl
      have hlast : Text.lastLine (before ++ (skipBlankLines c).rest.takeWhile isMargin) =
          (skipBlankLines c).rest.takeWhile isMargin := by
        rw [Text.lastLine_append _ hbreak, hline hempty, List.nil_append]
      refine ⟨⟨before ++ (skipBlankLines c).rest.takeWhile isMargin, ?_, ?_, fun _ => ?_⟩, ?_⟩
      · simpa [Cursor.span] using hsource
      · simp only [Cursor.span]
        rw [hposition, Position.after_append]
      · rw [hlast]
        refine ⟨?_, fun _ => ?_⟩
        · rw [eq_comm, List.all_eq_true]
          exact fun d hd => (hmargin d hd).1
        · simp only [Cursor.span]
          rw [hsplit]
      · intro more
        split
        · simp [starts, width]
        · split
          · simp [starts, width]
          · have hsame : lineWidth = marginWidth ((skipBlankLines c).span isMargin).1 := by
              omega
            rw [← hsame]
            rfl

theorem isOpening_eq_false
    (hgap : isGap c = false)
    (hclose : c ≠ '}') :
    isOpening c = false := by
  simp only [isGap, Bool.or_eq_false_iff, decide_eq_false_iff_not] at hgap
  simp [isOpening, hgap, hclose]

/-- A step passes at most one start, which stands where the step begins. -/
theorem step_starts
    {next : Scanner}
    {read : List Token}
    (h : s.Tracks source fresh)
    (hrest : s.cursor.rest = c :: rest)
    (hstep : s.step c rest = .ok (read, next)) :
    ∃ found fresh', next.Tracks source fresh' ∧
      (∀ more, starts .nodes s.lineWidth fresh (read ++ more) =
        found ++ starts .nodes next.lineWidth fresh' more) ∧
      (found = [] ∨ ∃ marker, found = [(s.cursor.position, marker)] ∧
        Text.MarksAt source s.cursor.position marker) := by
  have hin : Cursor.In ⟨c :: rest, s.cursor.position⟩ source := by
    obtain ⟨before, hsource, hposition, -⟩ := h
    exact ⟨before, by rw [hsource, hrest], hposition⟩
  have htracks : ∀ f, Tracks source ⟨⟨c :: rest, s.cursor.position⟩, s.lineWidth, f⟩ fresh := by
    intro f
    rw [← hrest]
    exact h
  have hnext : next.cursor.In source := by
    rw [← hrest] at hin
    exact (step_sound hrest hstep hin).1
  cases steps_of_step hstep with
  | newline hline =>
      have hbegins : Cursor.BeginsLine ⟨rest, s.cursor.position.next c⟩ source := by
        obtain ⟨before, hsource, hposition⟩ := hin
        refine ⟨before ++ [c], by simpa using hsource, ?_, fun _ => ?_⟩
        · simp only at hposition
          rw [Position.after_append, ← hposition]
          rfl
        · rw [hline]
          exact Text.lastLine_append_cons before List.not_mem_nil
      obtain ⟨hbegun, hmargin⟩ := beginLine_tracks hbegins s.lineWidth
      refine ⟨[], true, hbegun, fun more => ?_, Or.inl rfl⟩
      rw [List.cons_append, List.nil_append, ← hmargin more]
      simp [starts, single]
  | gap hgap =>
      have hopening : isOpening c = true := by
        simp only [isGap, Bool.or_eq_true, decide_eq_true_eq] at hgap
        rcases hgap with (rfl | rfl) | rfl <;> rfl
      exact ⟨[], fresh, (htracks s.fresh).opening hopening _, fun more => rfl, Or.inl rfl⟩
  | braceOpen hbrace =>
      have hoccupies : s.cursor.Occupies ⟨rest, s.cursor.position.next c⟩ := by
        refine occupies_of_rest [] hrest ?_ (by simp)
        rw [hbrace]
        decide
      refine ⟨[], false, h.occupied hnext hoccupies _ _, fun more => ?_, Or.inl rfl⟩
      simp [starts, single]
  | braceClose hbrace =>
      have hopening : isOpening c = true := by
        rw [hbrace]
        rfl
      refine ⟨[], fresh, (htracks s.fresh).opening hopening _, fun more => ?_, Or.inl rfl⟩
      simp [starts, single]
  | header hgap hmark hahead hread =>
      have hletter : isIdentifierChar c = true := by
        simp only [headerAhead, Bool.and_eq_true] at hahead
        simp [isIdentifierChar, isAsciiAlphanumeric, hahead.1]
      have hmarks := h.marksAt hrest (isOpening_eq_false hgap hmark.2.2) hmark.1
      exact ⟨[_], false, (htracks s.fresh).occupied hnext (header_occupies hletter hread) _ _,
        fun more => starts_header s.lineWidth fresh hread more, Or.inr ⟨_, rfl, hmarks⟩⟩
  | text hgap hmark =>
      have hopening := isOpening_eq_false hgap hmark.2.2
      have hoccupies := textRun_occupies rest s.cursor.position hopening hmark.2.1 hmark.1
      refine ⟨[_], false, (htracks s.fresh).occupied hnext hoccupies _ _, fun more => ?_,
        Or.inr ⟨_, rfl, h.marksAt hrest hopening hmark.1⟩⟩
      simp [starts, textRun]

end Tracks

/-- A step leaves the scanner at a later place. -/
theorem before_of_step
    {source rest : List Char}
    {s next : Scanner}
    {c : Char}
    {read : List Token}
    (h : s.cursor.In source)
    (hrest : s.cursor.rest = c :: rest)
    (hstep : s.step c rest = .ok (read, next)) :
    s.cursor.position.Before next.cursor.position := by
  have hshorter := step_shorter hstep
  obtain ⟨before', hsource', hposition'⟩ := (step_sound hrest hstep h).1
  obtain ⟨before, hsource, hposition⟩ := h
  have hlength : before.length < before'.length := by
    have hsame := congrArg List.length (hsource.symm.trans hsource')
    rw [hrest] at hsame
    simp only [List.length_append, List.length_cons] at hsame
    omega
  obtain ⟨passed, rfl⟩ : before <+: before' := by
    have hbefore : before <+: source := ⟨s.cursor.rest, hsource.symm⟩
    exact List.prefix_of_prefix_length_le hbefore ⟨_, hsource'.symm⟩ (Nat.le_of_lt hlength)
  rw [hposition', Position.after_append, ← hposition]
  refine Position.before_after _ ?_
  rintro rfl
  simp at hlength

/-- The starts from a place on stand at that place or behind it, one after another, and each has the
marker of its place. -/
structure InOrder
    (source : List Char)
    (place : Position)
    (starts : List (Position × Option Nat)) : Prop where
  reached : ∀ start ∈ starts, start.1 = place ∨ place.Before start.1
  ordered : starts.Pairwise fun a b => a.1.Before b.1
  marked : ∀ start ∈ starts, Text.MarksAt source start.1 start.2

/-- A whole run: headers and text runs start where the lines say, in order. -/
theorem tokens_starts
    {source : List Char}
    {s : Scanner}
    {fresh : Bool}
    {tokens : List Token}
    (h : s.Tracks source fresh)
    (htokens : s.tokens = .ok tokens) :
    InOrder source s.cursor.position (starts .nodes s.lineWidth fresh tokens) := by
  fun_induction Scanner.tokens s generalizing fresh tokens with
  | case1 s hrest =>
      simp only [Except.ok.injEq] at htokens
      subst htokens
      constructor <;> simp [starts]
  | case2 s c rest hrest e hstep =>
      simp at htokens
  | case3 s c rest hrest read next hstep ih =>
      cases hmore : next.tokens with
      | error e =>
          simp [hmore, Except.map] at htokens
      | ok more =>
          simp only [hmore, Except.map, Except.ok.injEq] at htokens
          subst htokens
          obtain ⟨found, fresh', hnext, hstarts, hfound⟩ := step_starts h hrest hstep
          obtain ⟨hreached, hordered, hmarked⟩ := ih hnext hmore
          have hin : s.cursor.In source := by
            obtain ⟨before, hsource, hposition, -⟩ := h
            exact ⟨before, hsource, hposition⟩
          have hlater := before_of_step hin hrest hstep
          have hbehind : ∀ start ∈ starts .nodes next.lineWidth fresh' more,
              s.cursor.position.Before start.1 := by
            intro start hstart
            rcases hreached start hstart with hsame | hbefore
            · exact hsame ▸ hlater
            · exact hlater.trans hbefore
          rw [hstarts]
          rcases hfound with rfl | ⟨marker, rfl, hmarks⟩
          · exact ⟨fun start hstart => Or.inr (hbehind start hstart), hordered, hmarked⟩
          · refine ⟨?_, List.pairwise_cons.2 ⟨hbehind, hordered⟩, List.forall_mem_cons.2
              ⟨hmarks, hmarked⟩⟩
            exact List.forall_mem_cons.2
              ⟨Or.inl rfl, fun start hstart => Or.inr (hbehind start hstart)⟩

end Scanner

/-- The starts of a source's tokens are ordered and have the markers of their places. -/
theorem Token.scan_starts
    {source : String}
    {tokens : List Token}
    (hscan : Token.scan source = .ok tokens) :
    ∃ place, Scanner.InOrder source.toList place (Token.starts .nodes 0 true tokens) := by
  have hbegins : Token.Cursor.BeginsLine ⟨source.toList, Position.start⟩ source.toList :=
    ⟨[], rfl, rfl, fun _ => rfl⟩
  obtain ⟨htracks, hmargin⟩ := Scanner.beginLine_tracks hbegins 0
  unfold Token.scan at hscan
  simp only at hscan
  cases htokens : (Scanner.beginLine ⟨source.toList, Position.start⟩ 0).2.tokens with
  | error e =>
      simp [htokens, Except.map] at hscan
  | ok more =>
      simp only [htokens, Except.map, Except.ok.injEq] at hscan
      subst hscan
      rw [hmargin]
      exact ⟨_, Scanner.tokens_starts htracks htokens⟩

end BlockMarkup
