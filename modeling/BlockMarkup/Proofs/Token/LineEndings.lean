import BlockMarkup.Proofs.Token.Sound
import BlockMarkup.Proofs.Token.Written

/-!
# Carriage returns before line feeds

A source may end its lines with a carriage return and a line feed. The scanner has no rule for the
pair: a carriage return is a gap among nodes, white space in an attribute list and before a header
ends, and part of a run of text, whose end is trimmed. Here every reading function is run on a text
and on the text with the carriage returns put in. The second run reads the same tokens and stops at
the same place, but for the line breaks, which stand one column further, and for the line feeds
inside string literals, which have got their carriage returns too (`Token.scan_withReturns`).
-/

namespace BlockMarkup

namespace Text

/-- The characters of a text with a carriage return before every line feed. -/
def addReturns (cs : List Char) : List Char :=
  cs.flatMap fun c => if c = '\n' then ['\r', '\n'] else [c]

/-- `String` form of `addReturns`. -/
def withReturns (s : String) : String := String.ofList (addReturns s.toList)

@[simp] theorem addReturns_nil : addReturns [] = [] := rfl

@[simp] theorem addReturns_newline
    (cs : List Char) :
    addReturns ('\n' :: cs) = '\r' :: '\n' :: addReturns cs := by
  simp [addReturns]

@[simp] theorem addReturns_cons
    {c : Char}
    (hc : c ≠ '\n')
    (cs : List Char) :
    addReturns (c :: cs) = c :: addReturns cs := by
  simp [addReturns, hc]

theorem addReturns_append
    (cs ds : List Char) :
    addReturns (cs ++ ds) = addReturns cs ++ addReturns ds :=
  List.flatMap_append

theorem addReturns_eq_self
    {cs : List Char}
    (hcs : '\n' ∉ cs) :
    addReturns cs = cs := by
  induction cs with
  | nil =>
      rfl
  | cons c cs ih =>
      rw [List.mem_cons, not_or] at hcs
      rw [addReturns_cons (Ne.symm hcs.1), ih hcs.2]

@[simp] theorem addReturns_eq_nil_iff
    {cs : List Char} :
    addReturns cs = [] ↔ cs = [] := by
  cases cs with
  | nil =>
      simp
  | cons c cs =>
      by_cases hc : c = '\n'
      · simp [hc]
      · simp [hc]

theorem exists_of_addReturns_eq_cons
    {c : Char}
    {cs ds : List Char}
    (hc : c ≠ '\r')
    (h : addReturns cs = c :: ds) :
    ∃ more, cs = c :: more := by
  cases cs with
  | nil =>
      simp at h
  | cons d cs =>
      by_cases hd : d = '\n'
      · simp [hd, Ne.symm hc] at h
      · rw [addReturns_cons hd, List.cons.injEq] at h
        exact ⟨cs, by rw [h.1]⟩

/-- A carriage return before a line feed moves no other character. -/
theorem next_return_newline
    (position : Position) :
    (position.next '\r').next '\n' = position.next '\n' := by
  simp [Position.next]

/-- Carriage returns do not change where a text leads to. -/
theorem after_addReturns
    (position : Position)
    (cs : List Char) :
    position.after (addReturns cs) = position.after cs := by
  induction cs generalizing position with
  | nil =>
      rfl
  | cons c cs ih =>
      by_cases hc : c = '\n'
      · subst hc
        rw [addReturns_newline, Position.after_cons, Position.after_cons, Position.after_cons,
          next_return_newline, ih]
      · rw [addReturns_cons hc, Position.after_cons, Position.after_cons, ih]

section Spans

variable {p : Char → Bool}

/-- What is skipped up to a character that is neither part of a line's end, or is both. -/
theorem dropWhile_addReturns
    (hp : p '\r' = p '\n')
    (cs : List Char) :
    (addReturns cs).dropWhile p = addReturns (cs.dropWhile p) := by
  induction cs with
  | nil =>
      rfl
  | cons c cs ih =>
      by_cases hc : c = '\n'
      · subst hc
        cases hfeed : p '\n' with
        | false => simp [hp, hfeed]
        | true => simp [hp, hfeed, ih]
      · cases hchar : p c with
        | false => simp [hc, hchar]
        | true => simp [hc, hchar, ih]

theorem takeWhile_addReturns
    (hreturn : p '\r' = false)
    (hfeed : p '\n' = false)
    (cs : List Char) :
    (addReturns cs).takeWhile p = cs.takeWhile p := by
  induction cs with
  | nil =>
      rfl
  | cons c cs ih =>
      by_cases hc : c = '\n'
      · subst hc
        simp [hreturn, hfeed]
      · simp [List.takeWhile_cons, hc, ih]

theorem head?_addReturns
    {cs : List Char}
    (hcs : cs.head? ≠ some '\n') :
    (addReturns cs).head? = cs.head? := by
  cases cs with
  | nil =>
      rfl
  | cons c cs =>
      have hc : c ≠ '\n' := by simpa using hcs
      simp [hc]

end Spans

end Text

namespace Token

open Text

/-- The token that is read where a carriage return stands before every line feed. -/
def addReturn (t : Token) : Token :=
  match t.kind with
  | .newline => { t with position := t.position.next '\r' }
  | .stringLiteral => { t with text := Text.withReturns t.text }
  | _ => t

theorem kind_addReturn
    (t : Token) :
    t.addReturn.kind = t.kind := by
  unfold addReturn
  split <;> simp_all

theorem addReturn_eq_self
    {t : Token}
    (hnewline : t.kind ≠ .newline)
    (hliteral : t.kind = .stringLiteral → '\n' ∉ t.text.toList) :
    t.addReturn = t := by
  unfold addReturn
  split
  · next hkind => exact absurd hkind hnewline
  · next hkind =>
      rw [Text.withReturns, addReturns_eq_self (hliteral hkind), String.ofList_toList]
  · rfl

/-- The same place in the text with the carriage returns put in. -/
def Cursor.addReturns (c : Cursor) : Cursor := ⟨Text.addReturns c.rest, c.position⟩

theorem Cursor.span_addReturns
    {p : Char → Bool}
    (hreturn : p '\r' = false)
    (hfeed : p '\n' = false)
    (c : Cursor) :
    c.addReturns.span p = ((c.span p).1, (c.span p).2.addReturns) := by
  simp [span, addReturns, takeWhile_addReturns hreturn hfeed,
    dropWhile_addReturns (hreturn.trans hfeed.symm)]

/-- What is read where the carriage returns are put in. -/
def addReturnsTo : List Token × Cursor → List Token × Cursor :=
  Prod.map (List.map addReturn) Cursor.addReturns

section Lookahead

/-- Nothing is read where no mark stands before a character of a name. -/
theorem decorations_eq_nil
    {c : Cursor}
    (hc : ∀ mark first rest, c.rest = mark :: first :: rest →
      ((mark = '.' || mark = '#') && isNameChar first) = false) :
    decorations c = ([], c) := by
  fun_cases decorations c with
  | case1 mark first rest position hmark =>
      simp [hc mark first rest rfl] at hmark
  | case2 => rfl
  | case3 => rfl

/-- Classes and an id never go over the end of a line. -/
theorem decorations_addReturns
    (c : Cursor) :
    decorations c.addReturns = addReturnsTo (decorations c) := by
  fun_induction decorations c with
  | case1 mark first rest position hmark place name tokens stop hstop ih =>
      have hmark' := hmark
      rw [Bool.and_eq_true, Bool.or_eq_true, decide_eq_true_eq, decide_eq_true_eq] at hmark
      have hfirst : first ≠ '\n' := by
        rintro rfl
        exact absurd hmark.2 (by decide)
      have hfeed : mark ≠ '\n' := by
        rintro rfl
        exact absurd hmark.1 (by decide)
      have hname : (addReturns rest).takeWhile isNameChar = rest.takeWhile isNameChar :=
        takeWhile_addReturns (by decide) (by decide) rest
      have hrest : (addReturns rest).dropWhile isNameChar =
          addReturns (rest.dropWhile isNameChar) :=
        dropWhile_addReturns (by decide) rest
      have hkind : (single (if mark = '.' then .dot else .hash) mark position).addReturn =
          single (if mark = '.' then .dot else .hash) mark position := by
        split <;> rfl
      simp only [hstop, Cursor.addReturns, addReturnsTo, Prod.map, place, name] at ih
      simp only [Cursor.addReturns, addReturns_cons hfeed, addReturns_cons hfirst, decorations,
        if_pos hmark', hname, hrest, ih, addReturnsTo, Prod.map, List.map_cons, hkind]
      rfl
  | case2 mark first rest position hmark =>
      refine decorations_eq_nil fun mark' first' rest' hrest => ?_
      by_cases hfeed : mark = '\n'
      · subst hfeed
        simp only [Cursor.addReturns, addReturns_newline, List.cons.injEq] at hrest
        simp [← hrest.1]
      · by_cases hfirst : first = '\n'
        · subst hfirst
          simp only [Cursor.addReturns, addReturns_cons hfeed, addReturns_newline,
            List.cons.injEq] at hrest
          rw [← hrest.2.1, Bool.and_eq_false_iff]
          exact Or.inr (by decide)
        · simp only [Cursor.addReturns, addReturns_cons hfeed, addReturns_cons hfirst,
            List.cons.injEq] at hrest
          rw [← hrest.1, ← hrest.2.1]
          simpa using hmark
  | case3 c hshort =>
      refine decorations_eq_nil fun mark first rest hrest => ?_
      obtain ⟨ds, position⟩ := c
      rcases ds with _ | ⟨d, _ | ⟨e, more⟩⟩
      · simp [Cursor.addReturns] at hrest
      · by_cases hfeed : d = '\n'
        · simp only [Cursor.addReturns, hfeed, addReturns_newline, List.cons.injEq] at hrest
          simp [← hrest.1]
        · simp [Cursor.addReturns, hfeed] at hrest
      · exact absurd rfl (hshort d e more position)

theorem dropDecorations_addReturns
    (cs : List Char) :
    dropDecorations (addReturns cs) = addReturns (dropDecorations cs) := by
  have hread := congrArg (fun read => read.2.rest)
    (decorations_addReturns ⟨cs, Position.start⟩)
  simpa [addReturnsTo, Cursor.addReturns, rest_decorations] using hread

/-- What the lookahead sees behind a parenthesis does not depend on carriage returns. -/
theorem attributesAhead_addReturns
    (cs : List Char) :
    attributesAhead (addReturns cs) = attributesAhead cs := by
  have hblank : ∀ ds : List Char,
      (addReturns ds).dropWhile isBlank = addReturns (ds.dropWhile isBlank) :=
    dropWhile_addReturns (by decide)
  have hhead : ∀ ds : List Char,
      (addReturns (ds.dropWhile isBlank)).head? = (ds.dropWhile isBlank).head? := by
    intro ds
    refine head?_addReturns fun hfeed => ?_
    have hnot := List.head?_dropWhile_not isBlank ds
    simp only [hfeed] at hnot
    exact absurd hnot (by decide)
  unfold attributesAhead
  rw [hblank]
  have hfirst := hhead cs
  cases hdrop : cs.dropWhile isBlank with
  | nil =>
      rfl
  | cons c rest =>
      have hc : c ≠ '\n' := by
        rintro rfl
        simp [hdrop] at hfirst
      rw [addReturns_cons hc]
      simp only
      rw [← addReturns_cons hc, dropWhile_addReturns (by decide), hblank, hhead]

theorem head?_dropWhile_isGap_addReturns
    (cs : List Char) :
    ((addReturns cs).dropWhile isGap).head? = (cs.dropWhile isGap).head? := by
  induction cs with
  | nil =>
      rfl
  | cons c cs ih =>
      by_cases hc : c = '\n'
      · subst hc
        simp [isGap]
      · cases hgap : isGap c with
        | false => simp [hc, hgap]
        | true => simpa [hc, hgap] using ih

/-- Putting carriage returns in keeps the comparison of a text with one of its ends. -/
theorem length_addReturns_lt_iff
    {cs ds : List Char}
    (hsuffix : cs <:+ ds) :
    (addReturns cs).length < (addReturns ds).length ↔ cs.length < ds.length := by
  obtain ⟨front, rfl⟩ := hsuffix
  simp [addReturns_append, List.length_pos_iff]

theorem dropDecorations_suffix
    (cs : List Char) :
    dropDecorations cs <:+ cs := by
  fun_induction dropDecorations cs with
  | case1 mark first rest hmark ih =>
      exact (ih.trans (List.dropWhile_suffix _)).trans
        ((List.suffix_cons first rest).trans (List.suffix_cons mark _))
  | case2 => exact List.suffix_refl _
  | case3 => exact List.suffix_refl _

/-- The lookahead finds the same headers. -/
theorem headerAhead_addReturns
    (opensLine : Bool)
    (cs : List Char) :
    headerAhead opensLine (addReturns cs) = headerAhead opensLine cs := by
  by_cases hfeed : cs.head? = some '\n'
  · obtain ⟨rest, rfl⟩ := List.head?_eq_some_iff.1 hfeed
    simp [headerAhead, isAsciiLetter]
  · have hlength := length_addReturns_lt_iff
      (dropDecorations_suffix (cs.dropWhile isIdentifierChar))
    rw [Bool.eq_iff_iff, headerAhead_iff, headerAhead_iff, head?_addReturns hfeed,
      takeWhile_addReturns (by decide) (by decide), dropWhile_addReturns (by decide)]
    simp only [LineEnds, dropDecorations_addReturns, head?_dropWhile_isGap_addReturns, hlength]
    generalize dropDecorations (cs.dropWhile isIdentifierChar) = rest
    cases rest with
    | nil =>
        rfl
    | cons c rest =>
        by_cases hc : c = '\n'
        · simp [hc]
        · simp only [addReturns_cons hc, List.head?_cons, List.cons.injEq, and_assoc,
            exists_and_left, exists_eq_left', attributesAhead_addReturns]

end Lookahead

section Reading

theorem literal_cons
    {quote c : Char}
    (hc : c ≠ '\\')
    (rest : List Char)
    (position : Position) :
    literal quote (c :: rest) position =
      if c = quote then some ([], ⟨rest, position.next c⟩)
      else (literal quote rest (position.next c)).map fun (value, stop) => (c :: value, stop) := by
  rw [literal]
  · exact fun h _ => hc h
  · exact fun _ _ h _ => hc h

/-- A backslash always has a rule of its own. -/
theorem ne_backslash
    {c : Char}
    {rest : List Char}
    (hlast : c = '\\' → rest = [] → False)
    (hescape : ∀ d more, c = '\\' → rest = d :: more → False) :
    c ≠ '\\' := by
  intro hc
  cases rest with
  | nil => exact hlast hc rfl
  | cons d more => exact hescape d more hc rfl

theorem quote_ne
    {quote : Char}
    (hquote : (quote = '"' || quote = '\'') = true) :
    quote ≠ '\r' ∧ quote ≠ '\n' := by
  rw [Bool.or_eq_true, decide_eq_true_eq, decide_eq_true_eq] at hquote
  rcases hquote with rfl | rfl <;> decide

/-- A literal may go over several lines, and then it holds the carriage returns as well. -/
theorem literal_addReturns
    {quote : Char}
    (hquote : (quote = '"' || quote = '\'') = true)
    (cs : List Char)
    (position : Position) :
    literal quote (addReturns cs) position =
      (literal quote cs position).map (Prod.map addReturns Cursor.addReturns) := by
  obtain ⟨hreturn, hfeed⟩ := quote_ne hquote
  fun_induction literal quote cs position with
  | case1 => rfl
  | case2 => rfl
  | case3 c rest position ih =>
      by_cases hc : c = '\n'
      · subst hc
        rw [addReturns_cons (by decide), addReturns_newline, literal, literal_cons (by decide),
          if_neg hfeed.symm, next_return_newline, ih]
        cases literal quote rest ((position.next '\\').next '\n') <;> simp [isEscapable]
      · rw [addReturns_cons (by decide), addReturns_cons hc, literal, ih]
        cases literal quote rest ((position.next '\\').next c) with
        | none => rfl
        | some read =>
            by_cases hescape : isEscapable c = true <;> simp [hescape, hc]
  | case4 rest position hlast hescape =>
      rw [addReturns_cons hfeed, literal_cons (ne_backslash hlast hescape), if_pos rfl]
      rfl
  | case5 c rest position hlast hescape hinside ih =>
      by_cases hc : c = '\n'
      · subst hc
        rw [addReturns_newline, literal_cons (by decide), if_neg hreturn.symm,
          literal_cons (by decide), if_neg hfeed.symm, next_return_newline, ih]
        cases literal quote rest (position.next '\n') <;> simp
      · rw [addReturns_cons hc, literal_cons (ne_backslash hlast hescape), if_neg hinside, ih]
        cases literal quote rest (position.next c) <;> simp [hc]

theorem map_followedBy_addReturnsTo
    (t : Token)
    (x : Except TokenError (List Token × Cursor)) :
    (x.map (followedBy t)).map addReturnsTo =
      (x.map addReturnsTo).map (followedBy t.addReturn) := by
  cases x <;> rfl

theorem attributeList_blank
    {first : Char}
    (hblank : isBlank first = true)
    (opened : Position)
    (rest : List Char)
    (position : Position) :
    attributeList opened ⟨first :: rest, position⟩ =
      attributeList opened ⟨rest, position.next first⟩ := by
  rw [attributeList]
  simp only [hblank, if_true]

/-- The tokens of an attribute list are the same but for the line feeds inside values. -/
theorem attributeList_addReturns
    (opened : Position)
    (c : Cursor) :
    attributeList opened c.addReturns = (attributeList opened c).map addReturnsTo := by
  fun_induction attributeList opened c with
  | case1 position =>
      simp [Cursor.addReturns, attributeList, Except.map]
  | case2 first rest position after hblank ih =>
      by_cases hfirst : first = '\n'
      · subst hfirst
        rw [Cursor.addReturns, addReturns_newline, attributeList_blank (by decide),
          attributeList_blank (by decide), next_return_newline]
        exact ih
      · rw [Cursor.addReturns, addReturns_cons hfirst, attributeList_blank hblank]
        exact ih
  | case3 rest position after hblank =>
      simp [Cursor.addReturns, attributeList, Except.map, addReturnsTo, after, hblank]
      rfl
  | case4 rest position after hblank hclose ih =>
      rw [Cursor.addReturns, addReturns_cons (by decide), attributeList, if_neg hblank,
        if_neg hclose, if_pos rfl, map_followedBy_addReturnsTo, ← ih]
      rfl
  | case5 rest position after hblank hclose hcolon ih =>
      rw [Cursor.addReturns, addReturns_cons (by decide), attributeList, if_neg hblank,
        if_neg hclose, if_neg hcolon, if_pos rfl, map_followedBy_addReturnsTo, ← ih]
      rfl
  | case6 first rest position hblank hclose hcolon hcomma hquote hread =>
      have hread' := literal_addReturns hquote rest (position.next first)
      rw [hread] at hread'
      rw [Cursor.addReturns, addReturns_cons (quote_ne hquote).2, attributeList, if_neg hblank,
        if_neg hclose, if_neg hcolon, if_neg hcomma, if_pos hquote]
      split
      · rfl
      · next hsome => simp [hread'] at hsome
  | case7 first rest position hblank hclose hcolon hcomma hquote value stop hread ih =>
      have hread' := literal_addReturns hquote rest (position.next first)
      rw [hread] at hread'
      rw [Cursor.addReturns, addReturns_cons (quote_ne hquote).2, attributeList, if_neg hblank,
        if_neg hclose, if_neg hcolon, if_neg hcomma, if_pos hquote]
      split
      · next hnone => simp [hread'] at hnone
      · next value' stop' hsome =>
          simp only [hread', Option.map_some, Option.some.injEq, Prod.map, Prod.mk.injEq] at hsome
          obtain ⟨rfl, rfl⟩ := hsome
          rw [map_followedBy_addReturnsTo, ← ih]
          simp [addReturn, Text.withReturns]
  | case8 first rest position hblank hclose hcolon hcomma hquote hstart name ih =>
      have hfirst : first ≠ '\n' := by
        rintro rfl
        exact hblank (by decide)
      rw [Cursor.addReturns, addReturns_cons hfirst, attributeList, if_neg hblank, if_neg hclose,
        if_neg hcolon, if_neg hcomma, if_neg hquote, if_pos hstart, map_followedBy_addReturnsTo,
        ← ih, takeWhile_addReturns (by decide) (by decide), dropWhile_addReturns (by decide)]
      rfl
  | case9 first rest position hblank hclose hcolon hcomma hquote hstart =>
      have hfirst : first ≠ '\n' := by
        rintro rfl
        exact hblank (by decide)
      rw [Cursor.addReturns, addReturns_cons hfirst, attributeList, if_neg hblank, if_neg hclose,
        if_neg hcolon, if_neg hcomma, if_neg hquote, if_neg hstart]
      rfl

/-- A header is read in the same way. -/
theorem header_addReturns
    (c : Cursor) :
    header c.addReturns = (header c).map addReturnsTo := by
  have htag := c.span_addReturns (p := isIdentifierChar) (by decide) (by decide)
  unfold header
  simp only [htag, decorations_addReturns]
  obtain ⟨names, rest, place⟩ := decorations (c.span isIdentifierChar).2
  by_cases hopen : ∃ list, rest = '(' :: list
  · obtain ⟨list, rfl⟩ := hopen
    have hlist := attributeList_addReturns place ⟨list, place.next '('⟩
    simp only [addReturnsTo, Prod.map, Cursor.addReturns, addReturns_cons (c := '(') (by decide)]
      at hlist ⊢
    rw [hlist]
    cases attributeList place ⟨list, place.next '('⟩ with
    | error e => rfl
    | ok read =>
        simp only [Except.map, Prod.map, List.map_append, List.map_cons]
        rfl
  · have hopen' : ∀ list, addReturns rest ≠ '(' :: list := by
      intro list hlist
      obtain ⟨more, hrest⟩ := exists_of_addReturns_eq_cons (by decide) hlist
      exact hopen ⟨more, hrest⟩
    simp only [addReturnsTo, Prod.map, Cursor.addReturns]
    split
    · next list opened heq =>
        injection heq with hlist
        exact absurd hlist (hopen' list)
    · split
      · next list opened heq =>
          injection heq with hlist
          exact absurd ⟨list, hlist⟩ hopen
      · rfl

theorem dropBlankEnd_append_return
    (cs : List Char) :
    dropBlankEnd (cs ++ ['\r']) = dropBlankEnd cs := by
  have hreturn : isBlank '\r' = true := by decide
  simp [dropBlankEnd, hreturn]

/-- A run of text ends at the same place, or it takes the carriage return before the line feed that
ends it. -/
theorem textSpan_addReturns
    (afterBlank : Bool)
    (cs : List Char) :
    textSpan afterBlank (addReturns cs) =
        ((textSpan afterBlank cs).1, addReturns (textSpan afterBlank cs).2) ∨
      ∃ more, (textSpan afterBlank cs).2 = '\n' :: more ∧
        textSpan afterBlank (addReturns cs) =
          ((textSpan afterBlank cs).1 ++ ['\r'], '\n' :: addReturns more) := by
  induction cs generalizing afterBlank with
  | nil =>
      exact Or.inl rfl
  | cons c cs ih =>
      by_cases hc : c = '\n'
      · subst hc
        refine Or.inr ⟨cs, by simp [textSpan], ?_⟩
        simp [textSpan, headerAhead, isAsciiLetter]
      · have hahead := headerAhead_addReturns false (c :: cs)
        rw [addReturns_cons hc] at hahead ⊢
        unfold textSpan
        rw [hahead]
        split
        · exact Or.inl (by rw [addReturns_cons hc])
        · split
          · exact Or.inl (by rw [addReturns_cons hc])
          · rcases ih (isBlank c) with heq | ⟨more, hmore, heq⟩
            · exact Or.inl (by rw [heq])
            · exact Or.inr ⟨more, hmore, by rw [heq]; rfl⟩

/-- A text run is the same. Where it ends with its line, the scanner has gone past the carriage
return already. -/
theorem textRun_addReturns
    (c : Cursor) :
    (textRun c.addReturns).1 = (textRun c).1 ∧
      ((textRun c.addReturns).2 = (textRun c).2.addReturns ∨
        ∃ more, (textRun c).2.rest = '\n' :: more ∧
          (textRun c.addReturns).2 =
            ⟨'\n' :: addReturns more, (textRun c).2.position.next '\r'⟩) := by
  have hspan := textSpan_addReturns false c.rest
  simp only [textRun, Cursor.addReturns]
  rcases hspan with heq | ⟨more, hmore, heq⟩
  · rw [heq]
    exact ⟨rfl, Or.inl rfl⟩
  · rw [heq, dropBlankEnd_append_return]
    exact ⟨rfl, Or.inr ⟨more, hmore, by rw [Position.after_append]; rfl⟩⟩

end Reading

section Lines

theorem splitLine_addReturns
    (cs : List Char) :
    splitLine (addReturns cs) = (addReturns (splitLine cs).1, addReturns (splitLine cs).2) := by
  fun_induction splitLine cs with
  | case1 => rfl
  | case2 cs =>
      simp [splitLine]
  | case3 c cs hc ih =>
      simp [splitLine, hc, ih]

theorem all_isBlank_line_addReturns
    (cs : List Char) :
    ((addReturns cs).takeWhile (· != '\n')).all isBlank =
      (cs.takeWhile (· != '\n')).all isBlank := by
  induction cs with
  | nil =>
      rfl
  | cons c cs ih =>
      by_cases hc : c = '\n'
      · simp [hc, isBlank]
      · simp [hc, ih]

theorem isBlankLine_addReturns
    (cs : List Char) :
    isBlankLine (addReturns cs) = isBlankLine cs := by
  unfold isBlankLine
  rw [dropWhile_addReturns (by decide)]
  cases cs.dropWhile isMargin with
  | nil =>
      rfl
  | cons c rest =>
      by_cases hc : c = '\n'
      · simp [hc, isBlank]
      · have hline := all_isBlank_line_addReturns (c :: rest)
        rw [addReturns_cons hc] at hline ⊢
        simp only [hline]

/-- The same blank lines are skipped. -/
theorem skipBlankLines_addReturns
    (c : Cursor) :
    skipBlankLines c.addReturns = (skipBlankLines c).addReturns := by
  fun_induction skipBlankLines c with
  | case1 c hblank line rest hempty =>
      rw [skipBlankLines, Cursor.addReturns, if_pos (by rwa [isBlankLine_addReturns]),
        splitLine_addReturns]
      simp only [after_addReturns]
      rw [if_pos (by simpa [rest] using hempty)]
      rfl
  | case2 c hblank line rest hempty ih =>
      rw [skipBlankLines, Cursor.addReturns, if_pos (by rwa [isBlankLine_addReturns]),
        splitLine_addReturns]
      simp only [after_addReturns]
      rw [if_neg (by simpa [rest] using hempty)]
      exact ih
  | case3 c hblank =>
      rw [skipBlankLines, if_neg]
      simpa [Cursor.addReturns, isBlankLine_addReturns] using hblank

end Lines

end Token

namespace Scanner

open Token Text

/-- The same state in the text with the carriage returns put in. -/
def addReturns (s : Scanner) : Scanner := { s with cursor := s.cursor.addReturns }

theorem addReturns_mk
    (cs : List Char)
    (position : Position)
    (lineWidth : Nat)
    (fresh : Bool) :
    addReturns ⟨⟨cs, position⟩, lineWidth, fresh⟩ =
      ⟨⟨Text.addReturns cs, position⟩, lineWidth, fresh⟩ :=
  rfl

/-- The tokens at the start of a line are the same, since margins have no carriage returns. -/
theorem beginLine_addReturns
    (c : Cursor)
    (lineWidth : Nat) :
    beginLine c.addReturns lineWidth =
      ((beginLine c lineWidth).1.map addReturn, (beginLine c lineWidth).2.addReturns) := by
  unfold beginLine
  rw [skipBlankLines_addReturns]
  generalize skipBlankLines c = d
  have hempty : d.addReturns.rest.isEmpty = d.rest.isEmpty := by
    cases hrest : d.rest with
    | nil => simp [Cursor.addReturns, hrest]
    | cons e more => simp [Cursor.addReturns, hrest]
  have hmargin := d.span_addReturns (p := isMargin) (by decide) (by decide)
  simp only [hempty, hmargin]
  split
  · rfl
  · split
    · rfl
    · split <;> rfl

/-- Gaps among nodes are passed over. -/
theorem tokens_gap
    {c : Char}
    (hgap : isGap c = true)
    (rest : List Char)
    (position : Position)
    (lineWidth : Nat)
    (fresh : Bool) :
    tokens ⟨⟨c :: rest, position⟩, lineWidth, fresh⟩ =
      tokens ⟨⟨rest, position.next c⟩, lineWidth, fresh⟩ := by
  have hline : c ≠ '\n' := by
    rintro rfl
    exact absurd hgap (by decide)
  rw [tokens_of_step rfl (by simp only [step, hline, hgap, if_true, if_false]; rfl)]
  cases tokens ⟨⟨rest, position.next c⟩, lineWidth, fresh⟩ <;> rfl

/-- Behind a run of text it makes no difference whether the run has taken a carriage return, which
else is the next gap. -/
theorem tokens_behind_textRun
    (c : Cursor)
    (lineWidth : Nat)
    (fresh : Bool) :
    tokens ⟨(textRun c.addReturns).2, lineWidth, fresh⟩ =
      tokens ⟨(textRun c).2.addReturns, lineWidth, fresh⟩ := by
  rcases (textRun_addReturns c).2 with hstop | ⟨more, hmore, hstop⟩
  · rw [hstop]
  · rw [hstop, Cursor.addReturns, hmore, addReturns_newline, tokens_gap (c := '\r') (by decide)]

/-- A step that reads a header reads it in the text with the carriage returns too. -/
theorem step_header_addReturns
    {c : Char}
    {rest : List Char}
    {fresh : Bool}
    (hgap : isGap c = false)
    (hmark : c ≠ '\n' ∧ c ≠ '{' ∧ c ≠ '}')
    (hahead : headerAhead fresh (c :: rest) = true)
    (position : Position)
    (lineWidth : Nat) :
    step ⟨⟨c :: Text.addReturns rest, position⟩, lineWidth, fresh⟩ c (Text.addReturns rest) =
      (Token.header ⟨c :: rest, position⟩).map fun found =>
        (found.1.map addReturn, ⟨found.2.addReturns, lineWidth, false⟩) := by
  have hahead' := headerAhead_addReturns fresh (c :: rest)
  have hread' := header_addReturns ⟨c :: rest, position⟩
  simp only [Cursor.addReturns, addReturns_cons hmark.1] at hahead' hread'
  simp only [step, hmark, hgap, hahead', hahead, hread', if_true, if_false, Bool.false_eq_true]
  cases Token.header ⟨c :: rest, position⟩ <;> rfl

/-- What one step reads is read in the text with the carriage returns too, in one step or, with a
carriage return passed over, in two. -/
theorem tokens_addReturns_of_steps
    {s next : Scanner}
    {c : Char}
    {rest : List Char}
    {read : List Token}
    (hrest : s.cursor.rest = c :: rest)
    (hsteps : s.Steps c rest read next) :
    s.addReturns.tokens = next.addReturns.tokens.map (read.map addReturn ++ ·) := by
  obtain ⟨⟨_, position⟩, lineWidth, fresh⟩ := s
  subst hrest
  cases hsteps with
  | newline hline =>
      subst hline
      have hbegin := beginLine_addReturns ⟨rest, position.next '\n'⟩ lineWidth
      simp only [Cursor.addReturns] at hbegin
      rw [addReturns_mk, addReturns_newline, tokens_gap (by decide), tokens_newline,
        next_return_newline, fromLine]
      simp only [hbegin]
      cases (beginLine ⟨rest, position.next '\n'⟩ lineWidth).2.addReturns.tokens <;> rfl
  | gap hgap =>
      have hline : c ≠ '\n' := by
        rintro rfl
        exact absurd hgap (by decide)
      rw [addReturns_mk, addReturns_mk, addReturns_cons hline, tokens_gap hgap]
      cases tokens ⟨⟨Text.addReturns rest, position.next c⟩, lineWidth, fresh⟩ <;> rfl
  | braceOpen hbrace =>
      subst hbrace
      rw [addReturns_mk, addReturns_mk, addReturns_cons (by decide)]
      exact tokens_of_step rfl rfl
  | braceClose hbrace =>
      subst hbrace
      rw [addReturns_mk, addReturns_mk, addReturns_cons (by decide)]
      exact tokens_of_step rfl rfl
  | header hgap hmark hahead hread =>
      have hstep := step_header_addReturns hgap hmark hahead position lineWidth
      rw [hread] at hstep
      rw [addReturns_mk, addReturns_cons hmark.1]
      exact tokens_of_step rfl hstep
  | text hgap hmark hahead =>
      have hahead' := headerAhead_addReturns fresh (c :: rest)
      have htoken := (textRun_addReturns ⟨c :: rest, position⟩).1
      have hbehind := tokens_behind_textRun ⟨c :: rest, position⟩ lineWidth false
      rw [Cursor.addReturns, addReturns_cons hmark.1] at htoken hbehind
      rw [addReturns_cons hmark.1] at hahead'
      rw [addReturns_mk, addReturns_cons hmark.1]
      simp only at hahead
      have hstep : step ⟨⟨c :: Text.addReturns rest, position⟩, lineWidth, fresh⟩ c
          (Text.addReturns rest) = .ok ([(textRun ⟨c :: rest, position⟩).1],
            ⟨(textRun ⟨c :: Text.addReturns rest, position⟩).2, lineWidth, false⟩) := by
        simp only [step, hmark, hgap, hahead', hahead, htoken, if_false, Bool.false_eq_true]
      rw [tokens_of_step rfl hstep, hbehind]
      rfl

/-- Only a header can be at fault. -/
theorem header_of_step_error
    {s : Scanner}
    {c : Char}
    {rest : List Char}
    {e : TokenError}
    (hstep : s.step c rest = .error e) :
    (c ≠ '\n' ∧ c ≠ '{' ∧ c ≠ '}') ∧ isGap c = false ∧ headerAhead s.fresh (c :: rest) = true ∧
      Token.header ⟨c :: rest, s.cursor.position⟩ = .error e := by
  unfold step at hstep
  simp only at hstep
  split_ifs at hstep with hline hgap hopen hclose hahead
  cases hread : header ⟨c :: rest, s.cursor.position⟩ with
  | ok found =>
      simp [hread, Except.map] at hstep
  | error e' =>
      simp only [hread, Except.map, Except.error.injEq] at hstep
      exact ⟨⟨hline, hopen, hclose⟩, by simpa using hgap, hahead, by rw [hstep]⟩

theorem tokens_of_step_error
    {s : Scanner}
    {c : Char}
    {rest : List Char}
    {e : TokenError}
    (hrest : s.cursor.rest = c :: rest)
    (hstep : s.step c rest = .error e) :
    s.tokens = .error e := by
  rw [tokens]
  split
  · simp_all
  · next d more hmore =>
      rw [hrest, List.cons.injEq] at hmore
      obtain ⟨rfl, rfl⟩ := hmore
      split
      · next e' hstep' =>
          rw [hstep] at hstep'
          cases hstep'
          rfl
      · simp_all

/-- The same tokens are read to the end, or the same complaint is made. -/
theorem tokens_addReturns
    (s : Scanner) :
    s.addReturns.tokens = s.tokens.map (List.map addReturn) := by
  fun_induction Scanner.tokens s with
  | case1 s hrest =>
      obtain ⟨⟨_, position⟩, lineWidth, fresh⟩ := s
      subst hrest
      exact tokens_nil position lineWidth fresh
  | case2 s c rest hrest e hstep =>
      obtain ⟨⟨_, position⟩, lineWidth, fresh⟩ := s
      subst hrest
      obtain ⟨hmark, hgap, hahead, hread⟩ := header_of_step_error hstep
      have hstep' := step_header_addReturns hgap hmark hahead position lineWidth
      rw [hread] at hstep'
      rw [addReturns_mk, addReturns_cons hmark.1]
      exact tokens_of_step_error rfl hstep'
  | case3 s c rest hrest read next hstep ih =>
      rw [tokens_addReturns_of_steps hrest (steps_of_step hstep), ih]
      cases next.tokens with
      | error e => rfl
      | ok more => simp [Except.map]

end Scanner

/-- A source with a carriage return before every line feed has the same tokens, or the same fault at
the same place. -/
theorem Token.scan_withReturns
    (source : String) :
    Token.scan (Text.withReturns source) = (Token.scan source).map (List.map Token.addReturn) := by
  have hline := Scanner.beginLine_addReturns ⟨source.toList, Position.start⟩ 0
  simp only [Token.Cursor.addReturns] at hline
  unfold Token.scan
  simp only [Text.withReturns, String.toList_ofList, hline, Scanner.tokens_addReturns]
  cases (Scanner.beginLine ⟨source.toList, Position.start⟩ 0).2.tokens with
  | error e => rfl
  | ok more => simp [Except.map]

end BlockMarkup
