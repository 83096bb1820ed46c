import BlockMarkup.Proofs.Text.Place
import BlockMarkup.Token.Scan
import Mathlib.Data.List.TakeWhile

/-!
# What tokens say about their source

Every token outside an attribute list is a piece of the source and carries the position of that
piece. Inside an attribute list the names are attribute names. The scanner is followed step by
step; what each step keeps is that its cursor stands in the source.
-/

namespace BlockMarkup

namespace Token

/-- Whether a token is a piece of the source at its position. A run of text stays on one line and
does not begin with a blank. -/
structure Faithful
    (source : List Char)
    (t : Token) : Prop where
  stands : Text.Stands source t.position t.text.toList
  oneLine : t.kind = .textRun → '\n' ∉ t.text.toList
  unindented : t.kind = .textRun → t.text.toList.head? ≠ some ' '

/-- Whether a text is an attribute name. -/
structure IsAttributeName (name : List Char) : Prop where
  nonempty : name ≠ []
  chars : ∀ c ∈ name, isAttributeChar c = true

def NamesAttribute (t : Token) : Prop := t.kind = .identifier → IsAttributeName t.text.toList

/-- Whether the tokens outside parentheses satisfy `outer` and those inside satisfy `inner`;
`inside` tells where the first token stands. -/
def Bracketed
    (outer inner : Token → Prop)
    (inside : Bool) :
    List Token → Prop
  | [] => True
  | t :: rest =>
    if inside then inner t ∧ Bracketed outer inner (t.kind ≠ .parenClose) rest
    else outer t ∧ Bracketed outer inner (t.kind = .parenOpen) rest

section Bracketed

variable {outer inner : Token → Prop}

theorem bracketed_append
    {tokens : List Token}
    (htokens : ∀ t ∈ tokens, outer t ∧ t.kind ≠ .parenOpen)
    {rest : List Token}
    (hrest : Bracketed outer inner false rest) :
    Bracketed outer inner false (tokens ++ rest) := by
  induction tokens with
  | nil =>
      exact hrest
  | cons t tokens ih =>
      rw [List.forall_mem_cons] at htokens
      have hkind : decide (t.kind = .parenOpen) = false := decide_eq_false htokens.1.2
      simp only [List.cons_append, Bracketed, hkind, Bool.false_eq_true, if_false]
      exact ⟨htokens.1.1, ih htokens.2⟩

theorem bracketed_inside_cons
    {t : Token}
    (ht : inner t)
    (hkind : t.kind ≠ .parenClose)
    {tokens : List Token}
    (htokens : Bracketed outer inner true tokens) :
    Bracketed outer inner true (t :: tokens) := by
  simpa [Bracketed, hkind] using ⟨ht, htokens⟩

end Bracketed

/-- Whether a cursor stands in a source. -/
def Cursor.In
    (c : Cursor)
    (source : List Char) : Prop :=
  ∃ before, source = before ++ c.rest ∧ c.position = Position.start.after before

section Cursor

variable {source taken rest : List Char} {position : Position}

theorem Cursor.In.advance
    (h : Cursor.In ⟨taken ++ rest, position⟩ source) :
    Cursor.In ⟨rest, position.after taken⟩ source := by
  obtain ⟨before, hsource, hposition⟩ := h
  refine ⟨before ++ taken, by simpa using hsource, ?_⟩
  simp only at hposition
  rw [hposition, Position.after_append]

theorem Cursor.In.stands
    (h : Cursor.In ⟨taken ++ rest, position⟩ source) :
    Text.Stands source position taken := by
  obtain ⟨before, hsource, hposition⟩ := h
  exact ⟨before, rest, hsource, hposition⟩

theorem Cursor.In.next
    {c : Char}
    (h : Cursor.In ⟨c :: rest, position⟩ source) :
    Cursor.In ⟨rest, position.next c⟩ source := by
  have hadvance : Cursor.In ⟨[c] ++ rest, position⟩ source := h
  exact hadvance.advance

/-- A token of one character is faithful. -/
theorem Cursor.In.faithful_single
    {c : Char}
    (h : Cursor.In ⟨c :: rest, position⟩ source)
    {kind : TokenKind}
    (hkind : kind ≠ .textRun) :
    Faithful source (single kind c position) := by
  have hstands : Cursor.In ⟨[c] ++ rest, position⟩ source := h
  refine ⟨?_, fun hrun => absurd hrun hkind, fun hrun => absurd hrun hkind⟩
  simpa [single] using hstands.stands

theorem Cursor.In.span
    {c : Cursor}
    (h : c.In source)
    (p : Char → Bool) :
    (c.span p).2.In source ∧ Text.Stands source c.position (c.span p).1 := by
  have hsplit : Cursor.In ⟨c.rest.takeWhile p ++ c.rest.dropWhile p, c.position⟩ source := by
    rw [List.takeWhile_append_dropWhile]
    exact h
  exact ⟨hsplit.advance, hsplit.stands⟩

end Cursor

section Reading

variable {source : List Char}

/-- Classes and an id stand in the source where their tokens say. -/
theorem decorations_sound
    {c : Cursor}
    (h : c.In source) :
    (decorations c).2.In source ∧
      ∀ t ∈ (decorations c).1, Faithful source t ∧ t.kind ≠ .parenOpen := by
  fun_induction decorations c with
  | case1 mark first rest position hmark place name tokens stop hstop ih =>
      have hname : Cursor.In ⟨name ++ rest.dropWhile isNameChar, place⟩ source := by
        have hsplit : name ++ rest.dropWhile isNameChar = first :: rest := by
          rw [List.cons_append, List.takeWhile_append_dropWhile]
        rw [hsplit]
        exact h.next
      have hrest := ih hname.advance
      rw [hstop] at hrest
      refine ⟨hrest.1, List.forall_mem_cons.2 ⟨?_, List.forall_mem_cons.2 ⟨?_, hrest.2⟩⟩⟩
      · refine ⟨h.faithful_single ?_, ?_⟩
        · split <;> simp
        · simp only [single]
          split <;> simp
      · refine ⟨⟨by simpa using hname.stands, by simp, by simp⟩, by simp⟩
  | case2 mark first rest position hmark =>
      exact ⟨h, by simp⟩
  | case3 c hshort =>
      exact ⟨h, by simp⟩

theorem literal_sound
    {quote : Char}
    {cs value : List Char}
    {position : Position}
    {stop : Cursor}
    (hread : literal quote cs position = some (value, stop))
    (h : Cursor.In ⟨cs, position⟩ source) :
    stop.In source := by
  fun_induction literal quote cs position generalizing value stop with
  | case1 => simp at hread
  | case2 => simp at hread
  | case3 position c rest ih =>
      obtain ⟨⟨value', stop'⟩, hread', heq⟩ := Option.map_eq_some_iff.1 hread
      simp only [Prod.mk.injEq] at heq
      exact heq.2 ▸ ih hread' h.next.next
  | case4 rest position =>
      simp only [Option.some.injEq, Prod.mk.injEq] at hread
      exact hread.2 ▸ h.next
  | case5 position c rest _ _ _ ih =>
      obtain ⟨⟨value', stop'⟩, hread', heq⟩ := Option.map_eq_some_iff.1 hread
      simp only [Prod.mk.injEq] at heq
      exact heq.2 ▸ ih hread' h.next

theorem isAttributeName_filter
    {first : Char}
    (hfirst : isAttributeStart first = true)
    (rest : List Char) :
    IsAttributeName ((first :: rest.takeWhile isAttributeChar).filter (· != colourMark)) := by
  have hmark : first ≠ colourMark := by
    rintro rfl
    exact absurd hfirst (by decide)
  have hchar : isAttributeChar first = true := by
    simp only [isAttributeStart, Bool.or_eq_true] at hfirst
    simp only [isAttributeChar, isAsciiAlphanumeric, Bool.or_eq_true]
    tauto
  refine ⟨by simp [hmark], fun c hc => ?_⟩
  rcases List.mem_cons.1 (List.mem_of_mem_filter hc) with rfl | hc
  · exact hchar
  · exact List.mem_takeWhile_imp hc

theorem exists_of_map_followedBy
    {read : Except TokenError (List Token × Cursor)}
    {t : Token}
    {tokens : List Token}
    {stop : Cursor}
    (hread : read.map (followedBy t) = .ok (tokens, stop)) :
    ∃ more, read = .ok (more, stop) ∧ tokens = t :: more := by
  cases read with
  | error e =>
      simp [Except.map] at hread
  | ok found =>
      simp only [Except.map, followedBy, Except.ok.injEq, Prod.mk.injEq] at hread
      exact ⟨found.1, by rw [← hread.2], hread.1.symm⟩

/-- An attribute list ends with the first parenthesis that closes one. -/
theorem attributeList_sound
    {opened : Position}
    {c stop : Cursor}
    {tokens : List Token}
    (hread : attributeList opened c = .ok (tokens, stop))
    (h : c.In source)
    (outer : Token → Prop) :
    stop.In source ∧ ∀ rest, Bracketed outer NamesAttribute false rest →
      Bracketed outer NamesAttribute true (tokens ++ rest) := by
  fun_induction attributeList opened c generalizing tokens stop with
  | case1 => simp at hread
  | case2 =>
      rename_i ih
      exact ih hread h.next
  | case3 rest position hclose =>
      simp only [Except.ok.injEq, Prod.mk.injEq] at hread
      obtain ⟨rfl, rfl⟩ := hread
      refine ⟨h.next, fun rest hrest => ?_⟩
      simpa [Bracketed, single, NamesAttribute] using hrest
  | case4 =>
      rename_i ih
      obtain ⟨more, hmore, rfl⟩ := exists_of_map_followedBy hread
      obtain ⟨hstop, hlist⟩ := ih hmore h.next
      refine ⟨hstop, fun rest hrest => ?_⟩
      exact bracketed_inside_cons (by simp [NamesAttribute, single]) (by simp [single])
        (hlist rest hrest)
  | case5 =>
      rename_i ih
      obtain ⟨more, hmore, rfl⟩ := exists_of_map_followedBy hread
      obtain ⟨hstop, hlist⟩ := ih hmore h.next
      refine ⟨hstop, fun rest hrest => ?_⟩
      exact bracketed_inside_cons (by simp [NamesAttribute, single]) (by simp [single])
        (hlist rest hrest)
  | case6 => simp at hread
  | case7 first rest position _ _ _ _ _ value literalStop hliteral ih =>
      obtain ⟨more, hmore, rfl⟩ := exists_of_map_followedBy hread
      obtain ⟨hstop, hlist⟩ := ih hmore (literal_sound hliteral h.next)
      refine ⟨hstop, fun rest hrest => ?_⟩
      exact bracketed_inside_cons (by simp [NamesAttribute]) (by simp) (hlist rest hrest)
  | case8 first rest position _ _ _ _ _ hstart name =>
      rename_i ih
      obtain ⟨more, hmore, rfl⟩ := exists_of_map_followedBy hread
      have hname : Cursor.In ⟨name ++ rest.dropWhile isAttributeChar, position⟩ source := by
        have hsplit : name ++ rest.dropWhile isAttributeChar = first :: rest := by
          rw [List.cons_append, List.takeWhile_append_dropWhile]
        rw [hsplit]
        exact h
      obtain ⟨hstop, hlist⟩ := ih hmore hname.advance
      refine ⟨hstop, fun more hmore => ?_⟩
      refine bracketed_inside_cons (fun _ => ?_) (by simp) (hlist more hmore)
      simpa using isAttributeName_filter hstart rest
  | case9 => simp at hread

/-- Whether tokens outside parentheses may be followed by any others outside. -/
def Closed
    (source : List Char)
    (tokens : List Token) : Prop :=
  ∀ rest, Bracketed (Faithful source) NamesAttribute false rest →
    Bracketed (Faithful source) NamesAttribute false (tokens ++ rest)

/-- A header is found where its tokens say, and has no parenthesis that is left open. -/
theorem header_sound
    {c stop : Cursor}
    {tokens : List Token}
    (hread : header c = .ok (tokens, stop))
    (h : c.In source) :
    stop.In source ∧ Closed source tokens := by
  obtain ⟨htag, hstands⟩ := h.span isIdentifierChar
  obtain ⟨hnames, hfaithful⟩ := decorations_sound htag
  have hall : ∀ t ∈ ⟨.identifier, String.ofList (c.span isIdentifierChar).1, c.position⟩ ::
      (decorations (c.span isIdentifierChar).2).1, Faithful source t ∧ t.kind ≠ .parenOpen :=
    List.forall_mem_cons.2 ⟨⟨⟨by simpa using hstands, by simp, by simp⟩, by simp⟩, hfaithful⟩
  unfold header at hread
  simp only at hread
  split at hread
  · next list opened hopen =>
      rw [hopen] at hnames
      cases hlist : attributeList opened ⟨list, opened.next '('⟩ with
      | error e =>
          simp [hlist, Except.map] at hread
      | ok read =>
          simp only [hlist, Except.map, Except.ok.injEq, Prod.mk.injEq] at hread
          obtain ⟨rfl, rfl⟩ := hread
          obtain ⟨hstop, hinside⟩ := attributeList_sound hlist hnames.next (Faithful source)
          have hparen : Faithful source (single .parenOpen '(' opened) :=
            hnames.faithful_single (by simp)
          refine ⟨hstop, fun rest hrest => ?_⟩
          rw [List.append_assoc]
          refine bracketed_append hall ?_
          simpa [Bracketed, single] using ⟨hparen, hinside rest hrest⟩
  · simp only [Except.ok.injEq, Prod.mk.injEq] at hread
    obtain ⟨rfl, rfl⟩ := hread
    exact ⟨hnames, fun rest hrest => bracketed_append hall hrest⟩

theorem textSpan_append
    (afterBlank : Bool)
    (cs : List Char) :
    (textSpan afterBlank cs).1 ++ (textSpan afterBlank cs).2 = cs := by
  induction cs generalizing afterBlank with
  | nil =>
      rfl
  | cons c rest ih =>
      unfold textSpan
      split
      · rfl
      · split
        · rfl
        · simp [ih]

theorem newline_not_mem_textSpan
    (afterBlank : Bool)
    (cs : List Char) :
    '\n' ∉ (textSpan afterBlank cs).1 := by
  induction cs generalizing afterBlank with
  | nil =>
      simp [textSpan]
  | cons c rest ih =>
      unfold textSpan
      split
      · simp
      · next hc =>
          split
          · simp
          · simp only [Bool.or_eq_true, decide_eq_true_eq, not_or] at hc
            rw [List.mem_cons, not_or]
            exact ⟨fun h => hc.2 h.symm, ih _⟩

theorem dropBlankEnd_prefix
    (cs : List Char) :
    Text.dropBlankEnd cs <+: cs := by
  rw [Text.dropBlankEnd, ← List.reverse_suffix, List.reverse_reverse]
  exact List.dropWhile_suffix _

/-- A text run starts at its place, without white space in front, and stays on its line. -/
theorem textRun_sound
    {first : Char}
    {rest : List Char}
    {position : Position}
    (h : Cursor.In ⟨first :: rest, position⟩ source)
    (hfirst : first ≠ ' ') :
    (textRun ⟨first :: rest, position⟩).2.In source ∧
      Faithful source (textRun ⟨first :: rest, position⟩).1 := by
  have hsplit : Cursor.In ⟨(textSpan false (first :: rest)).1 ++ (textSpan false (first :: rest)).2,
      position⟩ source := by
    rw [textSpan_append]
    exact h
  have hstarts := dropBlankEnd_prefix (textSpan false (first :: rest)).1
  refine ⟨hsplit.advance, ⟨?_, fun _ => ?_, fun _ => ?_⟩⟩
  · simpa [textRun] using hsplit.stands.of_prefix hstarts
  · intro hmem
    have hmem' : '\n' ∈ Text.dropBlankEnd (textSpan false (first :: rest)).1 := by
      simpa [textRun] using hmem
    exact newline_not_mem_textSpan false (first :: rest) (hstarts.subset hmem')
  · intro hhead
    have hhead' : (Text.dropBlankEnd (textSpan false (first :: rest)).1).head? = some ' ' := by
      simpa [textRun] using hhead
    obtain ⟨more, hmore⟩ := List.head?_eq_some_iff.1 hhead'
    have hall : Text.dropBlankEnd (textSpan false (first :: rest)).1 <+: first :: rest := by
      refine hstarts.trans ?_
      nth_rewrite 2 [← textSpan_append false (first :: rest)]
      exact List.prefix_append _ _
    rw [hmore, List.cons_prefix_cons] at hall
    exact hfirst hall.1.symm

theorem splitLine_append
    (cs : List Char) :
    (splitLine cs).1 ++ (splitLine cs).2 = cs := by
  fun_induction splitLine cs with
  | case1 => rfl
  | case2 => simp
  | case3 => simp_all

theorem skipBlankLines_sound
    {c : Cursor}
    (h : c.In source) :
    (skipBlankLines c).In source := by
  have hline : ∀ {c : Cursor}, c.In source →
      Cursor.In ⟨(splitLine c.rest).2, c.position.after (splitLine c.rest).1⟩ source := by
    intro c hc
    have hsplit : Cursor.In ⟨(splitLine c.rest).1 ++ (splitLine c.rest).2, c.position⟩ source := by
      rw [splitLine_append]
      exact hc
    exact hsplit.advance
  fun_induction skipBlankLines c with
  | case1 c _ line rest hempty =>
      have hnil : (splitLine c.rest).2 = [] := List.isEmpty_iff.1 hempty
      have hend := hline h
      rw [hnil] at hend
      exact hend
  | case2 c _ line rest _ ih =>
      exact ih (hline h)
  | case3 =>
      exact h

end Reading

end Token

namespace Scanner

open Token

variable {source : List Char}

/-- The tokens at the start of a line are faithful: they spell nothing. -/
theorem beginLine_sound
    {c : Cursor}
    (h : c.In source)
    (lineWidth : Nat) :
    (beginLine c lineWidth).2.cursor.In source ∧
      ∀ t ∈ (beginLine c lineWidth).1, Faithful source t ∧ t.kind ≠ .parenOpen := by
  have hskip := skipBlankLines_sound h
  obtain ⟨hspan, hstands⟩ := hskip.span isMargin
  unfold beginLine
  simp only
  split
  · exact ⟨hskip, by simp⟩
  · refine ⟨hspan, ?_⟩
    split
    · simpa using (⟨by simpa using hstands, by simp, by simp⟩ : Faithful source
        ⟨.indent, String.ofList ((skipBlankLines c).span isMargin).1, (skipBlankLines c).position⟩)
    · split
      · simpa using (⟨by simpa using hstands, by simp, by simp⟩ : Faithful source
          ⟨.dedent, String.ofList ((skipBlankLines c).span isMargin).1,
            (skipBlankLines c).position⟩)
      · simp

/-- What a step can do at the character `c`, which is followed by `rest`. -/
inductive Steps
    (s : Scanner)
    (c : Char)
    (rest : List Char) : List Token → Scanner → Prop
  | newline
      (hline : c = '\n') :
      Steps s c rest
        (single .newline c s.cursor.position ::
          (beginLine ⟨rest, s.cursor.position.next c⟩ s.lineWidth).1)
        (beginLine ⟨rest, s.cursor.position.next c⟩ s.lineWidth).2
  | gap
      (hgap : isGap c = true) :
      Steps s c rest [] ⟨⟨rest, s.cursor.position.next c⟩, s.lineWidth, s.fresh⟩
  | braceOpen
      (hbrace : c = '{') :
      Steps s c rest [single .braceOpen c s.cursor.position]
        ⟨⟨rest, s.cursor.position.next c⟩, s.lineWidth, false⟩
  | braceClose
      (hbrace : c = '}') :
      Steps s c rest [single .braceClose c s.cursor.position]
        ⟨⟨rest, s.cursor.position.next c⟩, s.lineWidth, false⟩
  | header
      (hgap : isGap c = false)
      (hmark : c ≠ '\n' ∧ c ≠ '{' ∧ c ≠ '}')
      (hahead : headerAhead s.fresh (c :: rest) = true)
      {read : List Token}
      {stop : Cursor}
      (hread : Token.header ⟨c :: rest, s.cursor.position⟩ = .ok (read, stop)) :
      Steps s c rest read ⟨stop, s.lineWidth, false⟩
  | text
      (hgap : isGap c = false)
      (hmark : c ≠ '\n' ∧ c ≠ '{' ∧ c ≠ '}')
      (hahead : headerAhead s.fresh (c :: rest) = false) :
      Steps s c rest [(textRun ⟨c :: rest, s.cursor.position⟩).1]
        ⟨(textRun ⟨c :: rest, s.cursor.position⟩).2, s.lineWidth, false⟩

/-- Whatever a step does is one of the cases of `Steps`. -/
theorem steps_of_step
    {s next : Scanner}
    {c : Char}
    {rest : List Char}
    {read : List Token}
    (hstep : s.step c rest = .ok (read, next)) :
    s.Steps c rest read next := by
  unfold step at hstep
  simp only at hstep
  split_ifs at hstep with hline hgap hopen hclose hahead
  · cases hstep
    exact .newline hline
  · cases hstep
    exact .gap hgap
  · cases hstep
    exact .braceOpen hopen
  · cases hstep
    exact .braceClose hclose
  · cases hread : header ⟨c :: rest, s.cursor.position⟩ with
    | error e =>
        simp [hread, Except.map] at hstep
    | ok found =>
        simp only [hread, Except.map] at hstep
        cases hstep
        exact .header (by simpa using hgap) ⟨hline, hopen, hclose⟩ hahead hread
  · cases hstep
    exact .text (by simpa using hgap) ⟨hline, hopen, hclose⟩ (by simpa using hahead)

/-- A step stays in the source and leaves no parenthesis open. -/
theorem step_sound
    {s next : Scanner}
    {c : Char}
    {rest : List Char}
    {read : List Token}
    (hrest : s.cursor.rest = c :: rest)
    (hstep : s.step c rest = .ok (read, next))
    (h : s.cursor.In source) :
    next.cursor.In source ∧ Closed source read := by
  have hc : Cursor.In ⟨c :: rest, s.cursor.position⟩ source := by
    rw [← hrest]
    exact h
  have hsingle : ∀ kind, kind ≠ .textRun → kind ≠ .parenOpen →
      Closed source [single kind c s.cursor.position] := by
    intro kind hrun hparen more hmore
    exact bracketed_append (List.forall_mem_singleton.2 ⟨hc.faithful_single hrun, hparen⟩) hmore
  cases steps_of_step hstep with
  | newline hline =>
      obtain ⟨hbegun, hmargin⟩ := beginLine_sound hc.next s.lineWidth
      refine ⟨hbegun, fun more hmore => ?_⟩
      exact hsingle .newline (by simp) (by simp) _ (bracketed_append hmargin hmore)
  | gap hgap =>
      exact ⟨hc.next, fun more hmore => hmore⟩
  | braceOpen hbrace =>
      exact ⟨hc.next, hsingle .braceOpen (by simp) (by simp)⟩
  | braceClose hbrace =>
      exact ⟨hc.next, hsingle .braceClose (by simp) (by simp)⟩
  | header hgap hmark hahead hread =>
      exact header_sound hread hc
  | text hgap hmark =>
      have hblank : c ≠ ' ' := by
        rintro rfl
        cases hgap
      obtain ⟨hnext, hrun⟩ := textRun_sound hc hblank
      refine ⟨hnext, fun more hmore => ?_⟩
      exact bracketed_append (List.forall_mem_singleton.2 ⟨hrun, by simp [textRun]⟩) hmore

/-- Along a whole run, names of attributes are found in lists only, and all else stands where it
says. -/
theorem tokens_sound
    {s : Scanner}
    {tokens : List Token}
    (htokens : s.tokens = .ok tokens)
    (h : s.cursor.In source) :
    Bracketed (Faithful source) NamesAttribute false tokens := by
  fun_induction Scanner.tokens s generalizing tokens with
  | case1 s hrest =>
      simp only [Except.ok.injEq] at htokens
      subst htokens
      have hend : Cursor.In ⟨[] ++ s.cursor.rest, s.cursor.position⟩ source := h
      have hfaithful : Faithful source ⟨.endOfInput, "", s.cursor.position⟩ :=
        ⟨by simpa using hend.stands, by simp, by simp⟩
      simpa [Bracketed] using hfaithful
  | case2 s c rest hrest e hstep =>
      simp at htokens
  | case3 s c rest hrest read next hstep ih =>
      obtain ⟨hnext, hclosed⟩ := step_sound hrest hstep h
      cases hmore : next.tokens with
      | error e =>
          simp [hmore, Except.map] at htokens
      | ok more =>
          simp only [hmore, Except.map, Except.ok.injEq] at htokens
          subst htokens
          exact hclosed more (ih hmore hnext)

end Scanner

/-- The tokens of a source are pieces of it, attribute lists apart. -/
theorem Token.scan_sound
    {source : String}
    {tokens : List Token}
    (hscan : Token.scan source = .ok tokens) :
    Token.Bracketed (Token.Faithful source.toList) Token.NamesAttribute false tokens := by
  have hstart : Token.Cursor.In ⟨source.toList, Position.start⟩ source.toList := ⟨[], rfl, rfl⟩
  obtain ⟨hline, hmargin⟩ := Scanner.beginLine_sound hstart 0
  unfold Token.scan at hscan
  simp only at hscan
  cases htokens : (Scanner.beginLine ⟨source.toList, Position.start⟩ 0).2.tokens with
  | error e =>
      simp [htokens, Except.map] at hscan
  | ok more =>
      simp only [htokens, Except.map, Except.ok.injEq] at hscan
      subst hscan
      exact Token.bracketed_append hmargin (Scanner.tokens_sound htokens hline)

end BlockMarkup
