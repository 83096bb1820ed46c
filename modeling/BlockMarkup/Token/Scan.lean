import BlockMarkup.Token
import BlockMarkup.Token.Lookahead

/-!
# Cutting a source text into tokens

The scanner stands between two characters of the source. At the beginning of a line it measures the
margin; then it reads one brace, one element header with its attribute list, or one run of text at a
time. Every reading function returns the tokens it has read and the place where it stopped, and
every step of the main loop consumes at least one character (`Scanner.step_shorter`).
-/

namespace BlockMarkup

namespace Token

/-- A place in a source text: the characters ahead, and the position of the first of them. -/
structure Cursor where
  rest : List Char
  position : Position
  deriving DecidableEq, Repr

namespace Cursor

/-- The longest run of characters that satisfy `p`, and the place after it. -/
def span (c : Cursor) (p : Char → Bool) : List Char × Cursor :=
  let taken := c.rest.takeWhile p
  (taken, ⟨c.rest.dropWhile p, c.position.after taken⟩)

theorem span_length_le (c : Cursor) (p : Char → Bool) :
    (c.span p).2.rest.length ≤ c.rest.length :=
  (List.dropWhile_suffix p).length_le

end Cursor

/-- A token of one character. -/
def single (kind : TokenKind) (c : Char) (position : Position) : Token :=
  ⟨kind, String.ofList [c], position⟩

/-- Reads the classes and ids that follow a tag. -/
def decorations (c : Cursor) : List Token × Cursor :=
  match c with
  | ⟨mark :: first :: rest, position⟩ =>
    if (mark = '.' || mark = '#') && isNameChar first then
      let place := position.next mark
      let name := first :: rest.takeWhile isNameChar
      let (tokens, stop) := decorations ⟨rest.dropWhile isNameChar, place.after name⟩
      (single (if mark = '.' then .dot else .hash) mark position ::
        ⟨.identifier, String.ofList name, place⟩ :: tokens, stop)
    else ([], c)
  | _ => ([], c)
termination_by c.rest.length
decreasing_by
  have hdrop : (rest.dropWhile isNameChar).length ≤ rest.length :=
    (List.dropWhile_suffix _).length_le
  simp only [List.length_cons]
  omega

theorem decorations_length_le (c : Cursor) : (decorations c).2.rest.length ≤ c.rest.length := by
  fun_induction decorations c with
  | case1 mark first rest position _ place name tokens stop hstop ih =>
    have hdrop : (rest.dropWhile isNameChar).length ≤ rest.length :=
      (List.dropWhile_suffix _).length_le
    simp only [hstop, List.length_cons] at ih ⊢
    omega
  | case2 => simp
  | case3 => simp

/-- The characters that a backslash takes away their meaning from. -/
def isEscapable (c : Char) : Bool := c = '"' || c = '\'' || c = '\\'

/-- Reads what follows the opening `quote` of a string literal: its value, and the place after the
closing quote. A backslash before a quote or a backslash is left out of the value; any other
backslash stays in it. -/
def literal (quote : Char) : List Char → Position → Option (List Char × Cursor)
  | [], _ => none
  | '\\' :: [], _ => none
  | '\\' :: c :: rest, position =>
    (literal quote rest ((position.next '\\').next c)).map fun (value, stop) =>
      (if isEscapable c then c :: value else '\\' :: c :: value, stop)
  | c :: rest, position =>
    if c = quote then some ([], ⟨rest, position.next c⟩)
    else (literal quote rest (position.next c)).map fun (value, stop) => (c :: value, stop)

theorem literal_length_lt {quote : Char} {cs : List Char} {position : Position}
    {value : List Char} {stop : Cursor} (h : literal quote cs position = some (value, stop)) :
    stop.rest.length < cs.length := by
  fun_induction literal quote cs position generalizing value stop with
  | case1 => simp at h
  | case2 => simp at h
  | case3 position c rest ih =>
    obtain ⟨⟨value', stop'⟩, hread, heq⟩ := Option.map_eq_some_iff.1 h
    have := ih hread
    simp only [Prod.mk.injEq] at heq
    simp only [← heq.2, List.length_cons]
    omega
  | case4 rest position =>
    simp only [Option.some.injEq, Prod.mk.injEq] at h
    simp [← h.2]
  | case5 position c rest _ _ _ ih =>
    obtain ⟨⟨value', stop'⟩, hread, heq⟩ := Option.map_eq_some_iff.1 h
    have := ih hread
    simp only [Prod.mk.injEq] at heq
    simp only [← heq.2, List.length_cons]
    omega

/-- Puts a token in front of what has been read after it. -/
def followedBy (t : Token) (read : List Token × Cursor) : List Token × Cursor :=
  (t :: read.1, read.2)

/-- Reads an attribute list from behind its opening parenthesis, which stood at `opened`, to behind
its closing one. -/
def attributeList (opened : Position) (c : Cursor) : Except TokenError (List Token × Cursor) :=
  match c with
  | ⟨[], _⟩ => .error ⟨.unterminatedAttributes, opened⟩
  | ⟨first :: rest, position⟩ =>
    let after : Cursor := ⟨rest, position.next first⟩
    if Text.isBlank first then attributeList opened after
    else if first = ')' then .ok ([single .parenClose first position], after)
    else if first = ':' then
      (attributeList opened after).map (followedBy (single .colon first position))
    else if first = ',' then
      (attributeList opened after).map (followedBy (single .comma first position))
    else if first = '"' || first = '\'' then
      match _hread : literal first rest (position.next first) with
      | none => .error ⟨.unterminatedString, position⟩
      | some (value, stop) =>
        (attributeList opened stop).map
          (followedBy ⟨.stringLiteral, String.ofList value, position⟩)
    else if isAttributeStart first then
      let name := first :: rest.takeWhile isAttributeChar
      (attributeList opened ⟨rest.dropWhile isAttributeChar, position.after name⟩).map
        (followedBy ⟨.identifier, String.ofList (name.filter (· != colourMark)), position⟩)
    else .error ⟨.illegalCharacter first, position⟩
termination_by c.rest.length
decreasing_by
  · simp
  · simp
  · simp
  · have hlt := literal_length_lt _hread
    simp only [List.length_cons]
    omega
  · have hdrop : (rest.dropWhile isAttributeChar).length ≤ rest.length :=
      (List.dropWhile_suffix _).length_le
    simp only [List.length_cons]
    omega

theorem attributeList_length_le {opened : Position} {c stop : Cursor} {tokens : List Token}
    (h : attributeList opened c = .ok (tokens, stop)) : stop.rest.length ≤ c.rest.length := by
  have hmap : ∀ {r : Except TokenError (List Token × Cursor)} {t : Token} {ts : List Token}
      {e : Cursor}, r.map (followedBy t) = .ok (ts, e) → ∃ us, r = .ok (us, e) := by
    intro r t ts e hr
    cases r with
    | error _ => simp [Except.map] at hr
    | ok read =>
      simp only [Except.map, followedBy, Except.ok.injEq, Prod.mk.injEq] at hr
      exact ⟨read.1, by rw [← hr.2]⟩
  fun_induction attributeList opened c generalizing tokens stop with
  | case1 => simp at h
  | case2 =>
    rename_i ih
    exact Nat.le_succ_of_le (ih h)
  | case3 =>
    simp only [Except.ok.injEq, Prod.mk.injEq] at h
    rw [← h.2]
    exact Nat.le_succ _
  | case4 =>
    rename_i ih
    obtain ⟨us, hus⟩ := hmap h
    exact Nat.le_succ_of_le (ih hus)
  | case5 =>
    rename_i ih
    obtain ⟨us, hus⟩ := hmap h
    exact Nat.le_succ_of_le (ih hus)
  | case6 => simp at h
  | case7 =>
    rename_i hread ih
    obtain ⟨us, hus⟩ := hmap h
    have hlt := literal_length_lt hread
    exact Nat.le_succ_of_le (Nat.le_of_lt (Nat.lt_of_le_of_lt (ih hus) hlt))
  | case8 =>
    rename_i ih
    obtain ⟨us, hus⟩ := hmap h
    exact Nat.le_succ_of_le (Nat.le_trans (ih hus) (List.dropWhile_suffix _).length_le)
  | case9 => simp at h

/-- Reads an element header. -/
def header (c : Cursor) : Except TokenError (List Token × Cursor) :=
  let tag := c.span isIdentifierChar
  let names := decorations tag.2
  let tokens := ⟨.identifier, String.ofList tag.1, c.position⟩ :: names.1
  match names.2 with
  | ⟨'(' :: rest, opened⟩ =>
    (attributeList opened ⟨rest, opened.next '('⟩).map fun (list, stop) =>
      (tokens ++ single .parenOpen '(' opened :: list, stop)
  | stop => .ok (tokens, stop)

theorem header_length_lt {c stop : Cursor} {tokens : List Token} {first : Char}
    {rest : List Char} (hc : c.rest = first :: rest) (hfirst : isIdentifierChar first = true)
    (h : header c = .ok (tokens, stop)) : stop.rest.length < c.rest.length := by
  have htag : (c.span isIdentifierChar).2.rest.length < c.rest.length := by
    have hdrop : (rest.dropWhile isIdentifierChar).length ≤ rest.length :=
      (List.dropWhile_suffix _).length_le
    simp only [Cursor.span, hc, List.dropWhile_cons, hfirst, if_true, List.length_cons]
    omega
  have hnames := decorations_length_le (c.span isIdentifierChar).2
  unfold header at h
  simp only at h
  split at h
  · next list opened hat =>
    rw [hat] at hnames
    simp only [List.length_cons] at hnames
    cases hlist : attributeList opened ⟨list, opened.next '('⟩ with
    | error _ => simp [hlist, Except.map] at h
    | ok read =>
      have hle : read.2.rest.length ≤ list.length := attributeList_length_le hlist
      simp only [hlist, Except.map, Except.ok.injEq, Prod.mk.injEq] at h
      rw [← h.2]
      omega
  · simp only [Except.ok.injEq, Prod.mk.injEq] at h
    rw [← h.2]
    omega

/-- The characters of a run of text and what follows them. A run ends before a brace, before a line
feed, and before an element header that follows white space; `afterBlank` tells that the character
before `cs` in the run is white space. -/
def textSpan (afterBlank : Bool) : List Char → List Char × List Char
  | [] => ([], [])
  | c :: rest =>
    if c = '{' || c = '}' || c = '\n' then ([], c :: rest)
    else if afterBlank && headerAhead false (c :: rest) then ([], c :: rest)
    else
      let run := textSpan (Text.isBlank c) rest
      (c :: run.1, run.2)

theorem textSpan_length_le (afterBlank : Bool) (cs : List Char) :
    (textSpan afterBlank cs).2.length ≤ cs.length := by
  induction cs generalizing afterBlank with
  | nil => simp [textSpan]
  | cons c rest ih =>
    unfold textSpan
    split
    · simp
    · split
      · simp
      · exact Nat.le_succ_of_le (ih _)

/-- Reads a run of text. White space at its end is left out. -/
def textRun (c : Cursor) : Token × Cursor :=
  let run := textSpan false c.rest
  (⟨.textRun, String.ofList (Text.dropBlankEnd run.1), c.position⟩,
    ⟨run.2, c.position.after run.1⟩)

theorem textRun_length_lt {c : Cursor} {first : Char} {rest : List Char}
    (hc : c.rest = first :: rest) (hbrace : first ≠ '{' ∧ first ≠ '}') (hline : first ≠ '\n') :
    (textRun c).2.rest.length < c.rest.length := by
  have hspan := textSpan_length_le (Text.isBlank first) rest
  have htext : (textRun c).2.rest = (textSpan (Text.isBlank first) rest).2 := by
    simp [textRun, hc, textSpan, hbrace.1, hbrace.2, hline]
  rw [htext, hc, List.length_cons]
  omega

/-- The first line of a text with its line feed, and the rest. -/
def splitLine : List Char → List Char × List Char
  | [] => ([], [])
  | c :: cs =>
    if c = '\n' then ([c], cs)
    else ((c :: (splitLine cs).1), (splitLine cs).2)

theorem splitLine_length (cs : List Char) :
    (splitLine cs).2.length + (splitLine cs).1.length = cs.length := by
  fun_induction splitLine cs
  case case1 => simp
  case case2 => simp
  case case3 => simp_all; omega

/-- Whether the line ahead is blank: behind its margin it ends, or it has white space only and that
begins with a carriage return. -/
def isBlankLine (cs : List Char) : Bool :=
  match cs.dropWhile isMargin with
  | [] => true
  | c :: rest =>
    (c = '\n' || c = '\r') && ((c :: rest).takeWhile (· != '\n')).all Text.isBlank

/-- Moves past the blank lines ahead. -/
def skipBlankLines (c : Cursor) : Cursor :=
  if isBlankLine c.rest then
    let line := (splitLine c.rest).1
    let rest := (splitLine c.rest).2
    if rest.isEmpty then ⟨[], c.position.after line⟩
    else skipBlankLines ⟨rest, c.position.after line⟩
  else c
termination_by c.rest.length
decreasing_by
  rename_i hrest
  have hsum := splitLine_length c.rest
  have hline : (splitLine c.rest).1 ≠ [] := by
    intro hnil
    cases hc : c.rest with
    | nil => exact hrest (by simp [rest, hc, splitLine])
    | cons d ds =>
      rw [hc] at hnil
      unfold splitLine at hnil
      split at hnil <;> simp at hnil
  have hpos := List.length_pos_iff.2 hline
  omega

theorem skipBlankLines_length_le (c : Cursor) : (skipBlankLines c).rest.length ≤ c.rest.length := by
  fun_induction skipBlankLines c with
  | case1 => simp
  | case2 c _ line rest _ ih =>
    have hsum := splitLine_length c.rest
    have hrest : rest.length ≤ c.rest.length := by simp only [rest]; omega
    simp only at ih
    omega
  | case3 => simp

end Token

/-- The state of the main loop: the place in the source, the indentation width of the last line that
was not blank, and whether no node has begun on the current line. -/
structure Scanner where
  cursor : Token.Cursor
  lineWidth : Nat
  fresh : Bool
  deriving DecidableEq, Repr

namespace Scanner

open Token

/-- Begins a line: skips blank lines and compares the margin with that of the line before. -/
def beginLine (c : Cursor) (lineWidth : Nat) : List Token × Scanner :=
  let c := skipBlankLines c
  if c.rest.isEmpty then ([], ⟨c, lineWidth, true⟩)
  else
    let margin := c.span isMargin
    let width := marginWidth margin.1
    let tokens : List Token :=
      if lineWidth < width then [⟨.indent, String.ofList margin.1, c.position⟩]
      else if width < lineWidth then [⟨.dedent, String.ofList margin.1, c.position⟩]
      else []
    (tokens, ⟨margin.2, width, true⟩)

theorem beginLine_length_le (c : Cursor) (lineWidth : Nat) :
    (beginLine c lineWidth).2.cursor.rest.length ≤ c.rest.length := by
  have hskip := skipBlankLines_length_le c
  unfold beginLine
  simp only
  split
  · exact hskip
  · exact Nat.le_trans (Cursor.span_length_le _ _) hskip

/-- Reads on from the character `c`, which is followed by `rest`. -/
def step (s : Scanner) (c : Char) (rest : List Char) : Except TokenError (List Token × Scanner) :=
  let position := s.cursor.position
  let after : Cursor := ⟨rest, position.next c⟩
  if c = '\n' then
    let line := beginLine after s.lineWidth
    .ok (single .newline c position :: line.1, line.2)
  else if isGap c then .ok ([], ⟨after, s.lineWidth, s.fresh⟩)
  else if c = '{' then .ok ([single .braceOpen c position], ⟨after, s.lineWidth, false⟩)
  else if c = '}' then .ok ([single .braceClose c position], ⟨after, s.lineWidth, false⟩)
  else if headerAhead s.fresh (c :: rest) then
    (header ⟨c :: rest, position⟩).map fun (tokens, stop) => (tokens, ⟨stop, s.lineWidth, false⟩)
  else
    let run := textRun ⟨c :: rest, position⟩
    .ok ([run.1], ⟨run.2, s.lineWidth, false⟩)

/-- Every step leaves fewer characters ahead. -/
theorem step_shorter {s next : Scanner} {c : Char} {rest : List Char} {tokens : List Token}
    (h : s.step c rest = .ok (tokens, next)) : next.cursor.rest.length < rest.length + 1 := by
  unfold step at h
  simp only at h
  split at h
  · simp only [Except.ok.injEq, Prod.mk.injEq] at h
    rw [← h.2]
    exact Nat.lt_succ_of_le (beginLine_length_le _ _)
  · next hline =>
    split at h
    · simp only [Except.ok.injEq, Prod.mk.injEq] at h
      simp [← h.2]
    · split at h
      · simp only [Except.ok.injEq, Prod.mk.injEq] at h
        simp [← h.2]
      · next hopen =>
        split at h
        · simp only [Except.ok.injEq, Prod.mk.injEq] at h
          simp [← h.2]
        · next hclose =>
          split at h
          · next hahead =>
            have hletter : isIdentifierChar c = true := by
              simp only [headerAhead, Bool.and_eq_true] at hahead
              simp [isIdentifierChar, isAsciiAlphanumeric, hahead.1]
            cases hread : header ⟨c :: rest, s.cursor.position⟩ with
            | error _ => simp [hread, Except.map] at h
            | ok read =>
              simp only [hread, Except.map, Except.ok.injEq, Prod.mk.injEq] at h
              rw [← h.2]
              exact header_length_lt rfl hletter hread
          · simp only [Except.ok.injEq, Prod.mk.injEq] at h
            rw [← h.2]
            exact textRun_length_lt rfl ⟨hopen, hclose⟩ hline

/-- The tokens from the scanner's place to the end of the source. -/
def tokens (s : Scanner) : Except TokenError (List Token) :=
  match _hrest : s.cursor.rest with
  | [] => .ok [⟨.endOfInput, "", s.cursor.position⟩]
  | c :: rest =>
    match _hstep : s.step c rest with
    | .error e => .error e
    | .ok (read, next) => (tokens next).map (read ++ ·)
termination_by s.cursor.rest.length
decreasing_by
  rw [_hrest]
  exact step_shorter _hstep

end Scanner

/-- Cuts a source text into tokens, the last of which is the end of input. -/
def Token.scan (source : String) : Except TokenError (List Token) :=
  let first := Scanner.beginLine ⟨source.toList, Position.start⟩ 0
  first.2.tokens.map (first.1 ++ ·)

end BlockMarkup
