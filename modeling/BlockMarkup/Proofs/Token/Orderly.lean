import BlockMarkup.Proofs.Token.Tiling

/-!
# The order of tokens

The scanner emits the marks of classes and ids, the parentheses and what stands between them in a
header only. So the tokens of a source are orderly: a mark follows a tag or a name and has a name
behind it, an attribute list follows a header and is closed before the next node, and the end of
input comes last (`Token.Orderly`).

Besides, every other token begins at a character of the source that tells its kind
(`Token.Begins`). Both are shown of the tokens that one step puts in front of the others.
-/

namespace BlockMarkup

namespace Text

/-- Whether a character of a text stands at a place, such that `p` holds of it and of what stands
behind it. -/
def HasAt
    (text : List Char)
    (place : Position)
    (p : Char → List Char → Prop) : Prop :=
  ∃ before c after, text = before ++ c :: after ∧ place = Position.behind before ∧ p c after

theorem HasAt.imp
    {text : List Char}
    {place : Position}
    {p q : Char → List Char → Prop}
    (h : HasAt text place p)
    (hpq : ∀ c after, p c after → q c after) :
    HasAt text place q := by
  obtain ⟨before, c, after, htext, hplace, hp⟩ := h
  exact ⟨before, c, after, htext, hplace, hpq c after hp⟩

end Text

namespace Token

/-- What an attribute list is made of. -/
def listKinds : List TokenKind := [.identifier, .colon, .comma, .stringLiteral]

/-- What stands outside of headers. -/
def plainKinds : List TokenKind := [.textRun, .braceOpen, .braceClose, .newline, .indent, .dedent]

/-- Whether tokens are the marks of classes and ids, each with its name. -/
inductive Marks : List Token → Prop
  | nil : Marks []
  | cons
      {mark name : Token} {rest : List Token}
      (hmark : mark.kind = .dot ∨ mark.kind = .hash)
      (hname : name.kind = .identifier)
      (hrest : Marks rest) :
      Marks (mark :: name :: rest)

/-- Whether tokens go on from an opening parenthesis to the one that closes it. -/
inductive Closes : List Token → Prop
  | closing
      {t : Token}
      (ht : t.kind = .parenClose) :
      Closes [t]
  | item
      {t : Token} {rest : List Token}
      (ht : t.kind ∈ listKinds)
      (hrest : Closes rest) :
      Closes (t :: rest)

/-- Whether tokens are an attribute list with its parentheses, or nothing. -/
inductive Parens : List Token → Prop
  | none : Parens []
  | list
      {opening : Token} {rest : List Token}
      (hopening : opening.kind = .parenOpen)
      (hrest : Closes rest) :
      Parens (opening :: rest)

/-- Whether the tokens of headers stand in headers only, and the end of input comes last. -/
inductive Orderly : List Token → Prop
  | endOfInput
      {t : Token}
      (ht : t.kind = .endOfInput) :
      Orderly [t]
  | plain
      {t : Token} {rest : List Token}
      (ht : t.kind ∈ plainKinds)
      (hrest : Orderly rest) :
      Orderly (t :: rest)
  | header
      {tag : Token} {marks list rest : List Token}
      (htag : tag.kind = .identifier)
      (hmarks : Marks marks)
      (hlist : Parens list)
      (hrest : Orderly rest) :
      Orderly (tag :: (marks ++ (list ++ rest)))

/-- Whether a name begins with the character `c` before `after`. It goes on as the source does, but
may leave out colour marks. -/
def NameFrom
    (name : List Char)
    (c : Char)
    (after : List Char) : Prop :=
  name.head? = some c ∧
    ∃ piece, piece <+: c :: after ∧ (name = piece ∨ name = piece.filter (· != colourMark))

/-- Whether the character `c` is a quote, and `after` goes on with a quoted value and that quote. -/
def QuotedFrom
    (value : List Char)
    (c : Char)
    (after : List Char) : Prop :=
  (c = '"' ∨ c = '\'') ∧ ∃ body rest, after = body ++ c :: rest ∧ Quotes c body value

/-- Whether a run of text can begin with the character `c`, and is what stands from there on up to
the white space at its end. -/
def RunFrom
    (text : List Char)
    (c : Char)
    (after : List Char) : Prop :=
  c ∉ [' ', '\t', '\r', '\n', '{', '}'] ∧
    ∃ more, more <+: after ∧ text = Text.dropBlankEnd (c :: more)

/-- What a token tells about the character `c` that it begins at, and about `after`, which stands
behind that. -/
def Opens
    (t : Token)
    (c : Char)
    (after : List Char) : Prop :=
  match t.kind with
  | .identifier => NameFrom t.text.toList c after
  | .dot => c = '.'
  | .hash => c = '#'
  | .parenOpen => c = '('
  | .parenClose => c = ')'
  | .braceOpen => c = '{'
  | .braceClose => c = '}'
  | .colon => c = ':'
  | .comma => c = ','
  | .stringLiteral => QuotedFrom t.text.toList c after
  | .textRun => RunFrom t.text.toList c after
  | .newline => c = '\n'
  | .indent | .dedent => True
  | .endOfInput => False

/-- Whether a token begins at a character of a source, and what it tells about that is true. -/
def Begins
    (source : List Char)
    (t : Token) : Prop :=
  Text.HasAt source t.position t.Opens

/-- What is known of the tokens of a source from some place on. -/
structure Scanned
    (source : List Char)
    (tokens : List Token) : Prop where
  orderly : Orderly tokens
  begins : ∀ t ∈ tokens, t.kind ≠ .endOfInput → t.Begins source

section Reading

variable {source rest : List Char} {position : Position}

theorem Cursor.In.hasAt
    {c : Char}
    (h : Cursor.In ⟨c :: rest, position⟩ source)
    {p : Char → List Char → Prop}
    (hp : p c rest) :
    Text.HasAt source position p := by
  obtain ⟨before, hsource, hplace⟩ := h
  exact ⟨before, c, rest, hsource, hplace.trans (Position.start_after before), hp⟩

theorem Cursor.In.begins
    {c : Char}
    (h : Cursor.In ⟨c :: rest, position⟩ source)
    {t : Token}
    (hposition : t.position = position)
    (hopens : t.Opens c rest) :
    t.Begins source := by
  subst hposition
  exact h.hasAt hopens

/-- Decorations are marks with names, each where it says. -/
theorem decorations_marks
    {c : Cursor}
    (h : c.In source) :
    Marks (decorations c).1 ∧ ∀ t ∈ (decorations c).1, t.Begins source := by
  fun_induction decorations c with
  | case1 mark first rest position hmark place name tokens stop hstop ih =>
      have hsplit : name ++ rest.dropWhile isNameChar = first :: rest := by
        rw [List.cons_append, List.takeWhile_append_dropWhile]
      have hname : Cursor.In ⟨name ++ rest.dropWhile isNameChar, place⟩ source := by
        rw [hsplit]
        exact h.next
      have hrest := ih hname.advance
      rw [hstop] at hrest
      have hopens : (⟨.identifier, String.ofList name, place⟩ : Token).Opens first rest := by
        refine ⟨by simp [name], name, ?_, Or.inl (by simp)⟩
        rw [← hsplit]
        exact List.prefix_append _ _
      have hboth : (mark = '.' ∨ mark = '#') ∧ isNameChar first = true := by
        simpa using hmark
      refine ⟨.cons ?_ rfl hrest.1, List.forall_mem_cons.2 ⟨h.begins rfl ?_,
        List.forall_mem_cons.2 ⟨h.next.begins rfl hopens, hrest.2⟩⟩⟩
      · rcases hboth.1 with rfl | rfl <;> simp [single]
      · rcases hboth.1 with rfl | rfl <;> simp [single, Opens]
  | case2 mark first rest position hmark =>
      exact ⟨.nil, by simp⟩
  | case3 c hshort =>
      exact ⟨.nil, by simp⟩

/-- An attribute list goes on to the first parenthesis that closes one. -/
theorem attributeList_closes
    {opened : Position}
    {c stop : Cursor}
    {tokens : List Token}
    (hread : attributeList opened c = .ok (tokens, stop))
    (h : c.In source) :
    Closes tokens ∧ ∀ t ∈ tokens, t.Begins source := by
  have hitem : ∀ {t : Token} {more : List Token}, t.kind ∈ listKinds → t.Begins source →
      (Closes more ∧ ∀ u ∈ more, u.Begins source) →
        Closes (t :: more) ∧ ∀ u ∈ t :: more, u.Begins source :=
    fun hkind hbegins hmore =>
      ⟨.item hkind hmore.1, List.forall_mem_cons.2 ⟨hbegins, hmore.2⟩⟩
  fun_induction attributeList opened c generalizing tokens stop with
  | case1 => simp at hread
  | case2 =>
      rename_i ih
      exact ih hread h.next
  | case3 rest position hclose =>
      simp only [Except.ok.injEq, Prod.mk.injEq] at hread
      obtain ⟨rfl, rfl⟩ := hread
      exact ⟨.closing rfl, List.forall_mem_singleton.2 (h.begins rfl rfl)⟩
  | case4 | case5 =>
      rename_i ih
      obtain ⟨more, hmore, rfl⟩ := exists_of_map_followedBy hread
      exact hitem (by simp [single, listKinds]) (h.begins rfl rfl) (ih hmore h.next)
  | case6 => simp at hread
  | case7 first rest position _ _ _ _ hquote value literalStop hliteral ih =>
      obtain ⟨more, hmore, rfl⟩ := exists_of_map_followedBy hread
      obtain ⟨body, hrest, -, hquotes⟩ := quotes_of_literal hliteral
      refine hitem (by simp [listKinds]) (h.begins rfl ?_)
        (ih hmore (literal_sound hliteral h.next))
      exact ⟨by simpa using hquote, body, literalStop.rest, hrest, by simpa using hquotes⟩
  | case8 first rest position _ _ _ _ _ hstart name =>
      rename_i ih
      obtain ⟨more, hmore, rfl⟩ := exists_of_map_followedBy hread
      have hsplit : name ++ rest.dropWhile isAttributeChar = first :: rest := by
        rw [List.cons_append, List.takeWhile_append_dropWhile]
      have hname : Cursor.In ⟨name ++ rest.dropWhile isAttributeChar, position⟩ source := by
        rw [hsplit]
        exact h
      have hmark : first ≠ colourMark := by
        rintro rfl
        exact absurd hstart (by decide)
      refine hitem (by simp [listKinds]) (h.begins rfl ?_) (ih hmore hname.advance)
      refine ⟨by simp [name, hmark], name, ?_, Or.inr (by simp)⟩
      rw [← hsplit]
      exact List.prefix_append _ _
  | case9 => simp at hread

/-- A header is a tag, its classes and ids, and perhaps a list. -/
theorem header_scanned
    {first : Char}
    {stop : Cursor}
    {tokens : List Token}
    (hread : header ⟨first :: rest, position⟩ = .ok (tokens, stop))
    (hfirst : isIdentifierChar first = true)
    (h : Cursor.In ⟨first :: rest, position⟩ source) :
    (∃ tag marks list, tokens = tag :: (marks ++ list) ∧ tag.kind = .identifier ∧ Marks marks ∧
      Parens list) ∧ ∀ t ∈ tokens, t.Begins source := by
  obtain ⟨htag, -⟩ := h.span isIdentifierChar
  obtain ⟨hmarks, hbegins⟩ := decorations_marks htag
  obtain ⟨hnames, -⟩ := decorations_sound htag
  have hopens : (⟨.identifier, String.ofList ((first :: rest).takeWhile isIdentifierChar),
      position⟩ : Token).Opens first rest := by
    refine ⟨by simp [List.takeWhile_cons_of_pos hfirst],
      (first :: rest).takeWhile isIdentifierChar, List.takeWhile_prefix _, ?_⟩
    exact Or.inl String.toList_ofList
  have htagBegins := h.begins rfl hopens
  unfold header at hread
  simp only at hread
  split at hread
  · next list opened hopen =>
      rw [hopen] at hnames
      cases hlist : attributeList opened ⟨list, opened.next '('⟩ with
      | error e =>
          simp [hlist, Except.map] at hread
      | ok read =>
          simp only [hlist, Except.map, Except.ok.injEq, Prod.mk.injEq] at hread
          obtain ⟨rfl, rfl⟩ := hread
          obtain ⟨hcloses, hinside⟩ := attributeList_closes hlist hnames.next
          refine ⟨⟨_, _, _, rfl, rfl, hmarks, .list rfl hcloses⟩, ?_⟩
          rw [List.cons_append, List.forall_mem_cons, List.forall_mem_append, List.forall_mem_cons]
          exact ⟨htagBegins, hbegins, hnames.begins rfl rfl, hinside⟩
  · simp only [Except.ok.injEq, Prod.mk.injEq] at hread
    obtain ⟨rfl, rfl⟩ := hread
    refine ⟨⟨_, _, [], by rw [List.append_nil], rfl, hmarks, .none⟩, ?_⟩
    exact List.forall_mem_cons.2 ⟨htagBegins, hbegins⟩

/-- A text run begins with a character that opens nothing else. -/
theorem textRun_begins
    {first : Char}
    (h : Cursor.In ⟨first :: rest, position⟩ source)
    (hgap : isGap first = false)
    (hmark : first ≠ '\n' ∧ first ≠ '{' ∧ first ≠ '}') :
    (textRun ⟨first :: rest, position⟩).1.Begins source := by
  have hspan : textSpan false (first :: rest) =
      (first :: (textSpan (Text.isBlank first) rest).1,
        (textSpan (Text.isBlank first) rest).2) := by
    simp [textSpan, hmark]
  refine h.begins rfl ⟨?_, (textSpan (Text.isBlank first) rest).1, ?_, ?_⟩
  · simp only [isGap, Bool.or_eq_false_iff, decide_eq_false_iff_not] at hgap
    simp [hgap, hmark]
  · nth_rewrite 2 [← textSpan_append (Text.isBlank first) rest]
    exact List.prefix_append _ _
  · simp [textRun, hspan]

namespace Scanned

theorem endOfInput
    (source : List Char)
    (position : Position) :
    Scanned source [⟨.endOfInput, "", position⟩] :=
  ⟨.endOfInput rfl, by simp⟩

theorem plain
    {t : Token}
    {tokens : List Token}
    (ht : t.kind ∈ plainKinds)
    (hbegins : t.Begins source)
    (htokens : Scanned source tokens) :
    Scanned source (t :: tokens) :=
  ⟨.plain ht htokens.orderly, List.forall_mem_cons.2 ⟨fun _ => hbegins, htokens.begins⟩⟩

theorem header
    {read tokens : List Token}
    (hread : ∃ tag marks list, read = tag :: (marks ++ list) ∧ tag.kind = .identifier ∧
      Marks marks ∧ Parens list)
    (hbegins : ∀ t ∈ read, t.Begins source)
    (htokens : Scanned source tokens) :
    Scanned source (read ++ tokens) := by
  obtain ⟨tag, marks, list, rfl, htag, hmarks, hlist⟩ := hread
  refine ⟨?_, List.forall_mem_append.2 ⟨fun t ht _ => hbegins t ht, htokens.begins⟩⟩
  rw [List.cons_append, List.append_assoc]
  exact .header htag hmarks hlist htokens.orderly

end Scanned

end Reading

end Token

namespace Scanner

open Token

variable {source : List Char}

/-- The margin of a line is a token if its width has changed. -/
theorem beginLine_scanned
    {c : Cursor}
    (h : c.In source)
    (lineWidth : Nat)
    {tokens : List Token}
    (htokens : Scanned source tokens) :
    Scanned source ((beginLine c lineWidth).1 ++ tokens) := by
  have hskip := skipBlankLines_sound h
  unfold beginLine
  generalize skipBlankLines c = line at hskip ⊢
  obtain ⟨_ | ⟨first, rest⟩, position⟩ := line
  · exact htokens
  · simp only [List.isEmpty_cons, Bool.false_eq_true, if_false]
    split
    · exact .plain (by simp [plainKinds]) (hskip.begins rfl trivial) htokens
    · split
      · exact .plain (by simp [plainKinds]) (hskip.begins rfl trivial) htokens
      · exact htokens

theorem isIdentifierChar_of_headerAhead
    {opensLine : Bool}
    {c : Char}
    {rest : List Char}
    (hahead : headerAhead opensLine (c :: rest) = true) :
    isIdentifierChar c = true := by
  simp only [headerAhead, Bool.and_eq_true] at hahead
  simp [isIdentifierChar, isAsciiAlphanumeric, hahead.1]

/-- One step keeps the tokens orderly. -/
theorem steps_scanned
    {s next : Scanner}
    {c : Char}
    {rest : List Char}
    {read : List Token}
    (hsteps : s.Steps c rest read next)
    (h : Cursor.In ⟨c :: rest, s.cursor.position⟩ source)
    {tokens : List Token}
    (htokens : Scanned source tokens) :
    Scanned source (read ++ tokens) := by
  cases hsteps with
  | newline hline =>
      subst hline
      exact .plain (by simp [single, plainKinds]) (h.begins rfl rfl)
        (beginLine_scanned h.next s.lineWidth htokens)
  | gap hgap =>
      exact htokens
  | braceOpen hbrace =>
      subst hbrace
      exact .plain (by simp [single, plainKinds]) (h.begins rfl rfl) htokens
  | braceClose hbrace =>
      subst hbrace
      exact .plain (by simp [single, plainKinds]) (h.begins rfl rfl) htokens
  | header hgap hmark hahead hread =>
      obtain ⟨hshape, hbegins⟩ :=
        header_scanned hread (isIdentifierChar_of_headerAhead hahead) h
      exact .header hshape hbegins htokens
  | text hgap hmark hahead =>
      exact .plain (by simp [textRun, plainKinds]) (textRun_begins h hgap hmark) htokens

/-- A whole run gives orderly tokens, each of which begins where it says. -/
theorem tokens_scanned
    {s : Scanner}
    {tokens : List Token}
    (htokens : s.tokens = .ok tokens)
    (h : s.cursor.In source) :
    Scanned source tokens := by
  fun_induction Scanner.tokens s generalizing tokens with
  | case1 s hrest =>
      simp only [Except.ok.injEq] at htokens
      exact htokens ▸ .endOfInput source _
  | case2 s c rest hrest e hstep =>
      simp at htokens
  | case3 s c rest hrest read next hstep ih =>
      have hin : Cursor.In ⟨c :: rest, s.cursor.position⟩ source := by
        rw [← hrest]
        exact h
      cases hmore : next.tokens with
      | error e =>
          simp [hmore, Except.map] at htokens
      | ok more =>
          simp only [hmore, Except.map, Except.ok.injEq] at htokens
          subst htokens
          exact steps_scanned (steps_of_step hstep) hin (ih hmore (step_sound hrest hstep h).1)

end Scanner

/-- The tokens of a source are orderly, and each begins at a character that tells its kind. -/
theorem Token.scan_scanned
    {source : String}
    {tokens : List Token}
    (hscan : Token.scan source = .ok tokens) :
    Token.Scanned source.toList tokens := by
  have hstart : Token.Cursor.In ⟨source.toList, Position.start⟩ source.toList := ⟨[], rfl, rfl⟩
  unfold Token.scan at hscan
  simp only at hscan
  cases htokens : (Scanner.beginLine ⟨source.toList, Position.start⟩ 0).2.tokens with
  | error e =>
      simp [htokens, Except.map] at hscan
  | ok more =>
      simp only [htokens, Except.map, Except.ok.injEq] at hscan
      subst hscan
      have hmore := Scanner.tokens_scanned htokens (Scanner.beginLine_sound hstart 0).1
      exact Scanner.beginLine_scanned hstart 0 hmore

end BlockMarkup
