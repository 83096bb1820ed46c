import BlockMarkup.Proofs.Text.Blank
import BlockMarkup.Proofs.Token.Sound
import BlockMarkup.Proofs.Token.Written

/-!
# Tokens tile their source

The tokens of a source cover it from left to right. Each of them is read from a span of characters,
the spans do not overlap, and what lies between them is white space. A token carries the line and
the column of the first character of its span, and its text is that span, except that the value of a
string literal stands between quotes and with backslashes, and that an attribute name may be written
with colour marks.

The scanner is followed as a path (`Token.Passes`): it moves over white space, or it reads one token
from the characters ahead. Every reading function goes along such a path, and a path from the
beginning of a source to its end is a tiling (`Token.Passes.exists_tiles`).
-/

namespace BlockMarkup

namespace Position

/-- The place behind `cs` at the beginning of a text: one more than the lines that have ended, and
one more than the characters of the line that has not. -/
def behind (cs : List Char) : Position :=
  ⟨cs.count '\n' + 1, (cs.reverse.takeWhile (· ≠ '\n')).length + 1⟩

theorem behind_concat
    (cs : List Char)
    (c : Char) :
    behind (cs ++ [c]) = (behind cs).next c := by
  by_cases hc : c = '\n' <;> simp [behind, next, hc]

/-- Counting characters one by one leads to the place behind them. -/
theorem start_after
    (cs : List Char) :
    start.after cs = behind cs := by
  induction cs using List.reverseRecOn with
  | nil =>
      rfl
  | append_singleton cs c ih =>
      rw [after_append, ih, behind_concat]
      rfl

end Position

namespace Token

/-- The characters of a text from `start` on and before `stop`. -/
structure Span where
  start : Nat
  stop : Nat
  start_le_stop : start ≤ stop

namespace Span

def chars
    (s : Span)
    (source : List Char) : List Char :=
  (source.take s.stop).drop s.start

/-- Whether the character at `i` belongs to a span. -/
def Holds
    (s : Span)
    (i : Nat) : Prop :=
  s.start ≤ i ∧ i < s.stop

end Span

/-- Whether `value` is written as `body` between two characters `quote`. A backslash takes the
meaning from a quote or a backslash behind it and is part of the value before anything else. -/
inductive Quotes (quote : Char) : List Char → List Char → Prop
  | nil : Quotes quote [] []
  | plain
      {c : Char} {body value : List Char}
      (hquote : c ≠ quote)
      (hbackslash : c ≠ '\\')
      (hrest : Quotes quote body value) :
      Quotes quote (c :: body) (c :: value)
  | escaped
      {c : Char} {body value : List Char}
      (hc : isEscapable c = true)
      (hrest : Quotes quote body value) :
      Quotes quote ('\\' :: c :: body) (c :: value)
  | backslash
      {c : Char} {body value : List Char}
      (hc : isEscapable c = false)
      (hrest : Quotes quote body value) :
      Quotes quote ('\\' :: c :: body) ('\\' :: c :: value)

/-- Whether a token spells `piece`; `inside` tells that it stands in an attribute list. -/
def Spells
    (inside : Bool)
    (piece : List Char)
    (t : Token) : Prop :=
  match t.kind with
  | .stringLiteral =>
    ∃ quote body, (quote = '"' ∨ quote = '\'') ∧ piece = quote :: (body ++ [quote]) ∧
      Quotes quote body t.text.toList
  | .identifier =>
    t.text.toList = if inside then piece.filter (· != '\uFE0F') else piece
  | _ => t.text.toList = piece

/-- Whether an attribute list is open behind a token. -/
def leavesInside
    (inside : Bool)
    (t : Token) : Bool :=
  if inside then t.kind ≠ .parenClose else t.kind = .parenOpen

/-- The tokens of a source with whether each of them stands in an attribute list. -/
def enclosed
    (inside : Bool) :
    List Token → List (Token × Bool)
  | [] => []
  | t :: rest => (t, inside) :: enclosed (leavesInside inside t) rest

/-- Whether spans are those of tokens, from the character `offset` of a source on: they come one
after another, each token is read from its span and has the position of its beginning, and all
characters that belong to no span are white space. -/
structure Tiles
    (source : List Char)
    (offset : Nat)
    (inside : Bool)
    (spans : List Span)
    (tokens : List Token) : Prop where
  ordered : spans.Pairwise fun s next => s.stop ≤ next.start
  bounded : ∀ s ∈ spans, offset ≤ s.start ∧ s.stop ≤ source.length
  read : List.Forall₂
    (fun s (t : Token × Bool) =>
      t.1.position = Position.behind (source.take s.start) ∧ Spells t.2 (s.chars source) t.1)
    spans (enclosed inside tokens)
  gaps : ∀ i c, offset ≤ i → source[i]? = some c → (∀ s ∈ spans, ¬s.Holds i) →
    Text.isBlank c = true

/-- Whether tokens are read on the way from one cursor to another. `inside` and `after` tell whether
the way begins and ends in an attribute list. -/
inductive Passes : Bool → Cursor → List Token → Cursor → Bool → Prop
  | refl
      (inside : Bool) (c : Cursor) :
      Passes inside c [] c inside
  | blank
      {inside after : Bool} {c : Char} {rest : List Char} {position : Position}
      {tokens : List Token} {stop : Cursor}
      (hc : Text.isBlank c = true)
      (hrest : Passes inside ⟨rest, position.next c⟩ tokens stop after) :
      Passes inside ⟨c :: rest, position⟩ tokens stop after
  | token
      {inside after : Bool} {piece rest : List Char} {position : Position}
      {t : Token} {tokens : List Token} {stop : Cursor}
      (hspells : Spells inside piece t)
      (hposition : t.position = position)
      (hkind : t.kind ≠ .endOfInput)
      (hrest : Passes (leavesInside inside t) ⟨rest, position.after piece⟩ tokens stop after) :
      Passes inside ⟨piece ++ rest, position⟩ (t :: tokens) stop after

theorem leavesInside_of_ne
    {inside : Bool}
    {t : Token}
    (hopen : t.kind ≠ .parenOpen)
    (hclose : t.kind ≠ .parenClose) :
    leavesInside inside t = inside := by
  cases inside <;> simp [leavesInside, hopen, hclose]

namespace Tiles

variable {source : List Char} {offset : Nat} {inside : Bool} {spans : List Span}
  {tokens : List Token}

/-- At the end of a source, nothing is left but the end of input. -/
theorem endOfInput
    (source : List Char)
    (inside : Bool) :
    Tiles source source.length inside [⟨source.length, source.length, le_rfl⟩]
      [⟨.endOfInput, "", Position.behind source⟩] := by
  refine ⟨by simp, by simp, ?_, ?_⟩
  · simp [enclosed, Spells, Span.chars]
  · intro i c hi hc
    rw [List.getElem?_eq_none hi] at hc
    cases hc

theorem blank
    {c : Char}
    (h : Tiles source (offset + 1) inside spans tokens)
    (hc : source[offset]? = some c)
    (hblank : Text.isBlank c = true) :
    Tiles source offset inside spans tokens := by
  refine ⟨h.ordered, fun s hs => ?_, h.read, fun i d hi hd hfree => ?_⟩
  · have hbounded := h.bounded s hs
    omega
  · rcases Nat.eq_or_lt_of_le hi with rfl | hi
    · rw [hc, Option.some.injEq] at hd
      exact hd ▸ hblank
    · exact h.gaps i d hi hd hfree

theorem token
    {before piece rest : List Char}
    {t : Token}
    (hsource : source = before ++ (piece ++ rest))
    (h : Tiles source (before ++ piece).length (leavesInside inside t) spans tokens)
    (hposition : t.position = Position.behind before)
    (hspells : Spells inside piece t) :
    Tiles source before.length inside
      (⟨before.length, (before ++ piece).length, by simp⟩ :: spans) (t :: tokens) := by
  have hchars : Span.chars ⟨before.length, (before ++ piece).length, by simp⟩ source = piece := by
    rw [Span.chars, hsource, ← List.append_assoc, List.take_left, List.drop_left]
  refine ⟨?_, ?_, ?_, fun i c hi hc hfree => ?_⟩
  · exact List.pairwise_cons.2 ⟨fun s hs => (h.bounded s hs).1, h.ordered⟩
  · refine List.forall_mem_cons.2 ⟨⟨le_rfl, by simp [hsource]⟩, fun s hs => ?_⟩
    obtain ⟨hstart, hstop⟩ := h.bounded s hs
    rw [List.length_append] at hstart
    exact ⟨by omega, hstop⟩
  · refine List.Forall₂.cons ⟨?_, ?_⟩ h.read
    · simpa [hsource] using hposition
    · rw [hchars]
      exact hspells
  · rw [List.forall_mem_cons] at hfree
    refine h.gaps i c ?_ hc hfree.2
    by_contra hlt
    exact hfree.1 ⟨hi, Nat.lt_of_not_le hlt⟩

end Tiles

namespace Passes

variable {inside between after : Bool} {c middle stop : Cursor} {tokens more : List Token}

theorem trans
    (h : Passes inside c tokens middle between)
    (hmore : Passes between middle more stop after) :
    Passes inside c (tokens ++ more) stop after := by
  induction h with
  | refl inside c =>
      exact hmore
  | blank hc _ ih =>
      exact .blank hc (ih hmore)
  | token hspells hposition hkind _ ih =>
      exact .token hspells hposition hkind (ih hmore)

theorem blanks
    {blanks : List Char}
    (hblanks : ∀ c ∈ blanks, Text.isBlank c = true)
    (inside : Bool)
    (rest : List Char)
    (position : Position) :
    Passes inside ⟨blanks ++ rest, position⟩ [] ⟨rest, position.after blanks⟩ inside := by
  induction blanks generalizing position with
  | nil =>
      exact .refl inside _
  | cons c blanks ih =>
      rw [List.forall_mem_cons] at hblanks
      exact .blank hblanks.1 (ih hblanks.2 (position.next c))

/-- A token of one character. -/
theorem single
    {kind : TokenKind}
    (hkind : kind ∉ [.stringLiteral, .identifier, .endOfInput])
    {d : Char}
    {rest : List Char}
    {position : Position}
    (hrest : Passes (leavesInside inside (single kind d position)) ⟨rest, position.next d⟩ tokens
      stop after) :
    Passes inside ⟨d :: rest, position⟩ (Token.single kind d position :: tokens) stop after := by
  simp only [List.mem_cons, List.not_mem_nil, or_false, not_or] at hkind
  have hspells : Spells inside [d] (Token.single kind d position) := by
    unfold Spells
    split
    · next h => exact absurd h hkind.1
    · next h => exact absurd h hkind.2.1
    · simp [Token.single]
  exact .token hspells rfl hkind.2.2 hrest

/-- A path to the end of a source is a tiling of it, with the end of input behind all other
tokens. -/
theorem exists_tiles
    (h : Passes inside c tokens stop after)
    (hstop : stop.rest = [])
    {source before : List Char}
    (hsource : source = before ++ c.rest)
    (hposition : c.position = Position.behind before) :
    stop.position = Position.behind source ∧
      ∃ spans, Tiles source before.length inside spans
        (tokens ++ [⟨.endOfInput, "", Position.behind source⟩]) := by
  induction h generalizing before with
  | refl inside c =>
      rw [hstop, List.append_nil] at hsource
      subst hsource
      exact ⟨hposition, _, Tiles.endOfInput source inside⟩
  | @blank inside after c rest position tokens stop hc hrest ih =>
      obtain ⟨hend, spans, htiles⟩ := ih hstop
        (show source = (before ++ [c]) ++ rest by simpa using hsource)
        (by rw [Position.behind_concat, ← hposition])
      rw [List.length_append, List.length_singleton] at htiles
      exact ⟨hend, spans, htiles.blank (by simp [hsource]) hc⟩
  | @token inside after piece rest position t tokens stop hspells hat hkind hrest ih =>
      obtain ⟨hend, spans, htiles⟩ := ih hstop
        (show source = (before ++ piece) ++ rest by simpa using hsource)
        (by
          simp only at hposition ⊢
          rw [hposition, ← Position.start_after, ← Position.start_after, Position.after_append])
      exact ⟨hend, _, Tiles.token hsource htiles (hat.trans hposition) hspells⟩

end Passes

section Reading

theorem decorations_passes
    (c : Cursor) :
    Passes false c (decorations c).1 (decorations c).2 false := by
  fun_induction decorations c with
  | case1 mark first rest position hmark place name tokens stop hstop ih =>
      have hsplit : first :: rest = name ++ rest.dropWhile isNameChar := by
        rw [List.cons_append, List.takeWhile_append_dropWhile]
      rw [hstop] at ih
      have hname : Passes false ⟨first :: rest, place⟩
          (⟨.identifier, String.ofList name, place⟩ :: tokens) stop false := by
        rw [hsplit]
        refine .token (by simp [Spells]) rfl (by simp) ?_
        rw [leavesInside_of_ne (by simp) (by simp)]
        exact ih
      refine Passes.single (by split <;> simp) ?_
      rw [leavesInside_of_ne (by simp only [Token.single]; split <;> simp)
        (by simp only [Token.single]; split <;> simp)]
      exact hname
  | case2 mark first rest position hmark =>
      exact .refl false _
  | case3 c hshort =>
      exact .refl false c

/-- A literal that is read is closed by its quote, and what stands before that is its value. -/
theorem quotes_of_literal
    {quote : Char}
    {cs value : List Char}
    {position : Position}
    {stop : Cursor}
    (hread : literal quote cs position = some (value, stop)) :
    ∃ body, cs = body ++ quote :: stop.rest ∧ stop.position = position.after (body ++ [quote]) ∧
      Quotes quote body value := by
  fun_induction literal quote cs position generalizing value stop with
  | case1 => simp at hread
  | case2 => simp at hread
  | case3 c rest position ih =>
      obtain ⟨⟨value', stop'⟩, hread', heq⟩ := Option.map_eq_some_iff.1 hread
      simp only [Prod.mk.injEq] at heq
      obtain ⟨hvalue, rfl⟩ := heq
      obtain ⟨body, rfl, hstop, hquotes⟩ := ih hread'
      refine ⟨'\\' :: c :: body, rfl, hstop, ?_⟩
      rw [← hvalue]
      split
      · next hc => exact .escaped hc hquotes
      · next hc => exact .backslash (Bool.eq_false_of_not_eq_true hc) hquotes
  | case4 rest position =>
      simp only [Option.some.injEq, Prod.mk.injEq] at hread
      obtain ⟨rfl, rfl⟩ := hread
      exact ⟨[], rfl, rfl, .nil⟩
  | case5 c rest position hshort hlong hquote ih =>
      obtain ⟨⟨value', stop'⟩, hread', heq⟩ := Option.map_eq_some_iff.1 hread
      simp only [Prod.mk.injEq] at heq
      obtain ⟨rfl, rfl⟩ := heq
      obtain ⟨body, rfl, hstop, hquotes⟩ := ih hread'
      have hbackslash : c ≠ '\\' := by
        rintro rfl
        cases hbody : body ++ quote :: stop'.rest with
        | nil => exact hshort rfl hbody
        | cons d ds => exact hlong d ds rfl hbody
      exact ⟨c :: body, rfl, hstop, .plain hquote hbackslash hquotes⟩

/-- An attribute list is passed from behind its opening parenthesis to behind the closing one, which
no quoted value is mistaken for. -/
theorem attributeList_passes
    {opened : Position}
    {c stop : Cursor}
    {tokens : List Token}
    (hread : attributeList opened c = .ok (tokens, stop)) :
    Passes true c tokens stop false := by
  fun_induction attributeList opened c generalizing tokens stop with
  | case1 => simp at hread
  | case2 first rest position after hblank =>
      rename_i ih
      exact .blank hblank (ih hread)
  | case3 rest position hclose =>
      simp only [Except.ok.injEq, Prod.mk.injEq] at hread
      obtain ⟨rfl, rfl⟩ := hread
      refine Passes.single (by simp) ?_
      exact .refl false _
  | case4 =>
      rename_i ih
      obtain ⟨more, hmore, rfl⟩ := exists_of_map_followedBy hread
      exact Passes.single (by simp) (ih hmore)
  | case5 =>
      rename_i ih
      obtain ⟨more, hmore, rfl⟩ := exists_of_map_followedBy hread
      exact Passes.single (by simp) (ih hmore)
  | case6 => simp at hread
  | case7 first rest position hblank hclose hcolon hcomma hquote value literalStop hliteral ih =>
      obtain ⟨more, hmore, rfl⟩ := exists_of_map_followedBy hread
      obtain ⟨body, hrest, hstop, hquotes⟩ := quotes_of_literal hliteral
      have hsplit : first :: rest = (first :: (body ++ [first])) ++ literalStop.rest := by
        simp [hrest]
      rw [hsplit]
      refine .token ⟨first, body, by simpa using hquote, rfl, by simpa using hquotes⟩ rfl
        (by simp) ?_
      rw [leavesInside_of_ne (by simp) (by simp), Position.after_cons, ← hstop]
      exact ih hmore
  | case8 first rest position _ _ _ _ _ hstart name =>
      rename_i ih
      obtain ⟨more, hmore, rfl⟩ := exists_of_map_followedBy hread
      have hsplit : first :: rest = name ++ rest.dropWhile isAttributeChar := by
        rw [List.cons_append, List.takeWhile_append_dropWhile]
      rw [hsplit]
      refine .token (by simp [Spells, colourMark]) rfl (by simp) ?_
      rw [leavesInside_of_ne (by simp) (by simp)]
      exact ih hmore
  | case9 => simp at hread

/-- A header is passed as a whole, with the attribute list that may stand behind it. -/
theorem header_passes
    {c stop : Cursor}
    {tokens : List Token}
    (hread : header c = .ok (tokens, stop)) :
    Passes false c tokens stop false := by
  have hnames : Passes false c (⟨.identifier, String.ofList (c.span isIdentifierChar).1,
      c.position⟩ :: (decorations (c.span isIdentifierChar).2).1)
      (decorations (c.span isIdentifierChar).2).2 false := by
    have hsplit : c = ⟨c.rest.takeWhile isIdentifierChar ++ c.rest.dropWhile isIdentifierChar,
        c.position⟩ := by
      rw [List.takeWhile_append_dropWhile]
    nth_rewrite 1 [hsplit]
    refine .token (by simp [Spells, Cursor.span]) rfl (by simp) ?_
    rw [leavesInside_of_ne (by simp) (by simp)]
    exact decorations_passes _
  unfold header at hread
  simp only at hread
  split at hread
  · next list opened hopen =>
      rw [hopen] at hnames
      cases hlist : attributeList opened ⟨list, opened.next '('⟩ with
      | error e =>
          simp [hlist, Except.map] at hread
      | ok read =>
          simp only [hlist, Except.map, Except.ok.injEq, Prod.mk.injEq] at hread
          obtain ⟨rfl, rfl⟩ := hread
          exact hnames.trans (Passes.single (by simp) (attributeList_passes hlist))
  · simp only [Except.ok.injEq, Prod.mk.injEq] at hread
    obtain ⟨rfl, rfl⟩ := hread
    exact hnames

/-- A text run is passed up to its last character that is not white space, and the rest with it. -/
theorem textRun_passes
    (c : Cursor) :
    Passes false c [(textRun c).1] (textRun c).2 false := by
  obtain ⟨blanks, hsplit, hblanks⟩ := Text.exists_dropBlankEnd_append (textSpan false c.rest).1
  have hrest : c = ⟨Text.dropBlankEnd (textSpan false c.rest).1 ++
      (blanks ++ (textSpan false c.rest).2), c.position⟩ := by
    rw [← List.append_assoc, ← hsplit, textSpan_append]
  have hstop : (textRun c).2 = ⟨(textSpan false c.rest).2,
      (c.position.after (Text.dropBlankEnd (textSpan false c.rest).1)).after blanks⟩ := by
    rw [← Position.after_append, ← hsplit]
    rfl
  rw [hstop]
  nth_rewrite 1 [hrest]
  refine .token (by simp [Spells, textRun]) rfl (by simp [textRun]) ?_
  rw [leavesInside_of_ne (by simp [textRun]) (by simp [textRun])]
  exact Passes.blanks hblanks false _ _

theorem isBlank_of_isMargin
    {c : Char}
    (hc : isMargin c = true) :
    Text.isBlank c = true := by
  have hgap : isGap c = true := by
    rw [isMargin] at hc
    rw [isGap, hc, Bool.true_or]
  exact isBlank_of_isGap hgap

theorem isBlank_of_isBlankLine
    {cs : List Char}
    (hline : isBlankLine cs = true) :
    ∀ c ∈ cs.takeWhile (· != '\n'), Text.isBlank c = true := by
  induction cs with
  | nil =>
      simp
  | cons c cs ih =>
      by_cases hc : isMargin c = true
      · have hnewline : c ≠ '\n' := by
          rintro rfl
          exact absurd hc (by decide)
        have hrest : isBlankLine cs = true := by
          simpa [isBlankLine, List.dropWhile_cons, hc] using hline
        simp only [List.takeWhile_cons, bne_iff_ne, ne_eq, hnewline, not_false_eq_true, if_true,
          List.forall_mem_cons]
        exact ⟨isBlank_of_isMargin hc, ih hrest⟩
      · rw [isBlankLine, List.dropWhile_cons_of_neg hc, Bool.and_eq_true, List.all_eq_true] at hline
        exact hline.2

/-- A line is blank with its line feed if it is without. -/
theorem isBlank_of_mem_splitLine
    {cs : List Char}
    (hline : ∀ c ∈ cs.takeWhile (· != '\n'), Text.isBlank c = true) :
    ∀ c ∈ (splitLine cs).1, Text.isBlank c = true := by
  induction cs with
  | nil =>
      simp [splitLine]
  | cons c cs ih =>
      by_cases hc : c = '\n'
      · subst hc
        simp only [splitLine, if_true, List.forall_mem_singleton]
        decide
      · simp only [List.takeWhile_cons, bne_iff_ne, ne_eq, hc, not_false_eq_true, if_true,
          List.forall_mem_cons] at hline
        simp only [splitLine, hc, if_false, List.forall_mem_cons]
        exact ⟨hline.1, ih hline.2⟩

/-- Blank lines are passed without a token. -/
theorem skipBlankLines_passes
    (c : Cursor) :
    Passes false c [] (skipBlankLines c) false := by
  have hline : ∀ {c : Cursor}, isBlankLine c.rest = true →
      Passes false c [] ⟨(splitLine c.rest).2, c.position.after (splitLine c.rest).1⟩ false := by
    intro c hc
    have hblanks := isBlank_of_mem_splitLine (isBlank_of_isBlankLine hc)
    have hpass := Passes.blanks hblanks false (splitLine c.rest).2 c.position
    rw [splitLine_append] at hpass
    exact hpass
  fun_induction skipBlankLines c with
  | case1 c hblank line rest hempty =>
      have hnil : (splitLine c.rest).2 = [] := List.isEmpty_iff.1 hempty
      have hend := hline hblank
      rw [hnil] at hend
      exact hend
  | case2 c hblank line rest hmore ih =>
      exact (hline hblank).trans ih
  | case3 c hblank =>
      exact .refl false c

end Reading

end Token

namespace Scanner

open Token

/-- The margin of a line is passed, whatever tokens the line starts with: they have no width. -/
theorem beginLine_passes
    (c : Cursor)
    (lineWidth : Nat) :
    Passes false c (beginLine c lineWidth).1 (beginLine c lineWidth).2.cursor false := by
  have hskip := skipBlankLines_passes c
  have hsplit : skipBlankLines c = ⟨(skipBlankLines c).rest.takeWhile isMargin ++
      (skipBlankLines c).rest.dropWhile isMargin, (skipBlankLines c).position⟩ := by
    rw [List.takeWhile_append_dropWhile]
  -- the margin is a token if the width changes, and white space otherwise
  have hmargin : ∀ kind, kind = .indent ∨ kind = .dedent →
      Passes false (skipBlankLines c) [⟨kind, String.ofList ((skipBlankLines c).span isMargin).1,
        (skipBlankLines c).position⟩] ((skipBlankLines c).span isMargin).2 false := by
    intro kind hkind
    nth_rewrite 1 [hsplit]
    refine .token ?_ rfl ?_ ?_
    · rcases hkind with rfl | rfl <;> simp [Spells, Cursor.span]
    · rcases hkind with rfl | rfl <;> simp
    · rw [leavesInside_of_ne (by rcases hkind with rfl | rfl <;> simp)
        (by rcases hkind with rfl | rfl <;> simp)]
      exact .refl false _
  have hsame : Passes false (skipBlankLines c) [] ((skipBlankLines c).span isMargin).2 false := by
    nth_rewrite 1 [hsplit]
    exact Passes.blanks (fun d hd => isBlank_of_isMargin (List.mem_takeWhile_imp hd)) false _ _
  unfold beginLine
  simp only
  split
  · exact hskip
  · split
    · exact hskip.trans (hmargin .indent (Or.inl rfl))
    · split
      · exact hskip.trans (hmargin .dedent (Or.inr rfl))
      · exact hskip.trans hsame

/-- A step goes along a path. -/
theorem step_passes
    {s next : Scanner}
    {c : Char}
    {rest : List Char}
    {read : List Token}
    (hrest : s.cursor.rest = c :: rest)
    (hstep : s.step c rest = .ok (read, next)) :
    Passes false s.cursor read next.cursor false := by
  have hcursor : s.cursor = ⟨c :: rest, s.cursor.position⟩ := by
    rw [← hrest]
  rw [hcursor]
  cases steps_of_step hstep with
  | newline hline =>
      exact Passes.single (by simp) (beginLine_passes _ _)
  | gap hgap =>
      exact .blank (isBlank_of_isGap hgap) (.refl false _)
  | braceOpen hbrace =>
      exact Passes.single (by simp) (.refl false _)
  | braceClose hbrace =>
      exact Passes.single (by simp) (.refl false _)
  | header hgap hmark hahead hread =>
      exact header_passes hread
  | text hgap hmark =>
      exact textRun_passes _

/-- The whole run goes along a path to the end of the source and puts the end of input behind what
it has read. -/
theorem tokens_passes
    {s : Scanner}
    {tokens : List Token}
    (htokens : s.tokens = .ok tokens) :
    ∃ read stop, tokens = read ++ [⟨.endOfInput, "", stop.position⟩] ∧ stop.rest = [] ∧
      Passes false s.cursor read stop false := by
  fun_induction Scanner.tokens s generalizing tokens with
  | case1 s hrest =>
      simp only [Except.ok.injEq] at htokens
      exact ⟨[], s.cursor, htokens.symm, hrest, .refl false _⟩
  | case2 s c rest hrest e hstep =>
      simp at htokens
  | case3 s c rest hrest read next hstep ih =>
      cases hmore : next.tokens with
      | error e =>
          simp [hmore, Except.map] at htokens
      | ok more =>
          simp only [hmore, Except.map, Except.ok.injEq] at htokens
          obtain ⟨later, stop, rfl, hstop, hpath⟩ := ih hmore
          refine ⟨read ++ later, stop, ?_, hstop, (step_passes hrest hstep).trans hpath⟩
          rw [← htokens, List.append_assoc]

end Scanner

namespace Token

/-- A scan passes the whole source, with one token at its end. -/
theorem scan_passes
    {source : String}
    {tokens : List Token}
    (hscan : scan source = .ok tokens) :
    ∃ read stop, tokens = read ++ [⟨.endOfInput, "", stop.position⟩] ∧ stop.rest = [] ∧
      Passes false ⟨source.toList, Position.start⟩ read stop false := by
  have hline := Scanner.beginLine_passes ⟨source.toList, Position.start⟩ 0
  unfold scan at hscan
  simp only at hscan
  cases htokens : (Scanner.beginLine ⟨source.toList, Position.start⟩ 0).2.tokens with
  | error e =>
      simp [htokens, Except.map] at hscan
  | ok more =>
      simp only [htokens, Except.map, Except.ok.injEq] at hscan
      obtain ⟨read, stop, rfl, hstop, hpath⟩ := Scanner.tokens_passes htokens
      exact ⟨_, stop, by rw [← hscan, List.append_assoc], hstop, hline.trans hpath⟩

theorem Passes.kind_ne_endOfInput
    {inside after : Bool}
    {c stop : Cursor}
    {tokens : List Token}
    (h : Passes inside c tokens stop after) :
    ∀ t ∈ tokens, t.kind ≠ .endOfInput := by
  induction h with
  | refl inside c =>
      simp
  | blank hc _ ih =>
      exact ih
  | token hspells hposition hkind _ ih =>
      exact List.forall_mem_cons.2 ⟨hkind, ih⟩

/-- The tokens of a source tile it, and the last of them, and only the last, is the end of input,
which stands behind all characters. -/
theorem scan_tiles
    {source : String}
    {tokens : List Token}
    (hscan : scan source = .ok tokens) :
    (∃ spans, Tiles source.toList 0 false spans tokens) ∧
      ∃ before last, tokens = before ++ [last] ∧ last.kind = .endOfInput ∧
        last.position = Position.behind source.toList ∧ ∀ t ∈ before, t.kind ≠ .endOfInput := by
  obtain ⟨read, stop, rfl, hstop, hpath⟩ := scan_passes hscan
  obtain ⟨hend, htiles⟩ := hpath.exists_tiles hstop (List.nil_append _).symm rfl
  rw [hend]
  exact ⟨htiles, read, _, rfl, rfl, rfl, hpath.kind_ne_endOfInput⟩

/-- A source with blank lines, a tab, a text that ends in white space, both kinds of quotes, escapes
and a colour mark. -/
def mixedSource : String :=
  "\r\n  \ndiv.card\uFE0F(⚡\uFE0F-data: \"a \\\" b\\n\",\n title: 'it') \x7b Hello  \x7d\n" ++
    "\tplain text \n \t"

theorem scan_tiles_mixedSource :
    ∃ tokens, scan mixedSource = .ok tokens ∧
      (∃ spans, Tiles mixedSource.toList 0 false spans tokens) ∧
        ∃ before last, tokens = before ++ [last] ∧ last.kind = .endOfInput ∧
          last.position = Position.behind mixedSource.toList ∧
            ∀ t ∈ before, t.kind ≠ .endOfInput := by
  have hok : (scan mixedSource).isOk = true := by decide +kernel
  cases hscan : scan mixedSource with
  | error e =>
      rw [hscan] at hok
      cases hok
  | ok tokens =>
      exact ⟨tokens, rfl, scan_tiles hscan⟩

end Token

end BlockMarkup
