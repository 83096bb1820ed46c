import BlockMarkup.Proofs.Token.LineEndings
import BlockMarkup.Proofs.Token.Tiling

/-!
# Sources that break off in an attribute list

A source that is cut off before the value of an attribute cannot be scanned: its last attribute list
is open. Where scanning fails so, the scanner stands in that list at the end of the text, and if a
quote follows, it comes to the same place with the same tokens, whatever is behind the quote
(`Token.scan_append_of_open`). Nothing that the scanner looks ahead for goes across a quote.
-/

namespace BlockMarkup

namespace Token

/-- Whether a text begins with a quote. -/
def StartsLiteral (tail : List Char) : Prop :=
  ∃ quote rest, tail = quote :: rest ∧ (quote = '"' ∨ quote = '\'')

/-- The same place in a text that goes on with `tail`. -/
def Cursor.extend (c : Cursor) (tail : List Char) : Cursor := ⟨c.rest ++ tail, c.position⟩

section Spans

variable {tail : List Char} {p : Char → Bool}

theorem StartsLiteral.head?_eq_false
    (htail : StartsLiteral tail)
    (hp : p '"' = false ∧ p '\'' = false) :
    ∃ quote rest, tail = quote :: rest ∧ p quote = false := by
  obtain ⟨quote, rest, rfl, hquote⟩ := htail
  refine ⟨quote, rest, rfl, ?_⟩
  rcases hquote with rfl | rfl
  · exact hp.1
  · exact hp.2

/-- A quote is not mistaken for another character. -/
theorem StartsLiteral.head?_append_iff
    (htail : StartsLiteral tail)
    {c : Char}
    (hc : c ≠ '"' ∧ c ≠ '\'')
    (cs : List Char) :
    (cs ++ tail).head? = some c ↔ cs.head? = some c := by
  obtain ⟨quote, rest, rfl, hquote⟩ := htail
  cases cs with
  | nil => rcases hquote with rfl | rfl <;> simp [hc.1.symm, hc.2.symm]
  | cons d cs => simp

theorem takeWhile_append_tail
    (htail : StartsLiteral tail)
    (hp : p '"' = false ∧ p '\'' = false)
    (cs : List Char) :
    (cs ++ tail).takeWhile p = cs.takeWhile p := by
  obtain ⟨quote, rest, rfl, hquote⟩ := htail.head?_eq_false hp
  induction cs with
  | nil =>
      simp [hquote]
  | cons c cs ih =>
      cases hc : p c with
      | false => simp [hc]
      | true => simp [hc, ih]

theorem dropWhile_append_tail
    (htail : StartsLiteral tail)
    (hp : p '"' = false ∧ p '\'' = false)
    (cs : List Char) :
    (cs ++ tail).dropWhile p = cs.dropWhile p ++ tail := by
  obtain ⟨quote, rest, rfl, hquote⟩ := htail.head?_eq_false hp
  induction cs with
  | nil =>
      simp [hquote]
  | cons c cs ih =>
      cases hc : p c with
      | false => simp [hc]
      | true => simp [hc, ih]

theorem Cursor.span_extend
    (htail : StartsLiteral tail)
    (hp : p '"' = false ∧ p '\'' = false)
    (c : Cursor) :
    (c.extend tail).span p = ((c.span p).1, (c.span p).2.extend tail) := by
  simp only [span, extend, takeWhile_append_tail htail hp, dropWhile_append_tail htail hp]

end Spans

section Lookahead

variable {tail : List Char}

/-- A quote is no part of a class or an id. -/
theorem decorations_extend
    (htail : StartsLiteral tail)
    (c : Cursor) :
    decorations (c.extend tail) = ((decorations c).1, (decorations c).2.extend tail) := by
  have hname : isNameChar '"' = false ∧ isNameChar '\'' = false := by decide
  fun_induction decorations c with
  | case1 mark first rest position hmark place name tokens stop hstop ih =>
      rw [hstop] at ih
      simp only [Cursor.extend, place, name] at ih
      simp only [Cursor.extend, List.cons_append, decorations, if_pos hmark,
        takeWhile_append_tail htail hname, dropWhile_append_tail htail hname, ih]
      rfl
  | case2 mark first rest position hmark =>
      refine decorations_eq_nil fun mark' first' rest' hrest => ?_
      simp only [Cursor.extend, List.cons_append, List.cons.injEq] at hrest
      rw [← hrest.1, ← hrest.2.1]
      simpa using hmark
  | case3 c hshort =>
      refine decorations_eq_nil fun mark first rest hrest => ?_
      obtain ⟨quote, more, rfl, hquote⟩ := htail.head?_eq_false hname
      obtain ⟨ds, position⟩ := c
      rcases ds with _ | ⟨d, _ | ⟨e, ds⟩⟩
      · have hmark : (quote = '.' || quote = '#') = false := by
          obtain ⟨_, _, heq, rfl | rfl⟩ := htail <;> simp_all
        simp only [Cursor.extend, List.nil_append, List.cons.injEq] at hrest
        rw [← hrest.1, hmark, Bool.false_and]
      · simp only [Cursor.extend, List.cons_append, List.nil_append, List.cons.injEq] at hrest
        rw [← hrest.2.1, hquote, Bool.and_false]
      · exact absurd rfl (hshort d e ds position)

theorem dropDecorations_append_tail
    (htail : StartsLiteral tail)
    (cs : List Char) :
    dropDecorations (cs ++ tail) = dropDecorations cs ++ tail := by
  have hread := congrArg (fun read => read.2.rest)
    (decorations_extend htail ⟨cs, Position.start⟩)
  simpa [Cursor.extend, rest_decorations] using hread

/-- The lookahead behind a parenthesis does not see a literal at the end. -/
theorem attributesAhead_append_tail
    (htail : StartsLiteral tail)
    (cs : List Char) :
    attributesAhead (cs ++ tail) = attributesAhead cs := by
  have hblank : ∀ ds, (ds ++ tail).dropWhile Text.isBlank = ds.dropWhile Text.isBlank ++ tail :=
    dropWhile_append_tail htail (by decide)
  unfold attributesAhead
  rw [hblank]
  cases cs.dropWhile Text.isBlank with
  | nil =>
      obtain ⟨quote, more, rfl, rfl | rfl⟩ := htail <;> rfl
  | cons c rest =>
      simp only [List.cons_append]
      rw [← List.cons_append, dropWhile_append_tail htail (by decide), hblank]
      simp only [htail.head?_append_iff (c := ':') (by decide)]

/-- Before a quote there is a header where there is one without it, unless it is one only because
the text ends. -/
theorem headerAhead_append_tail_iff
    (htail : StartsLiteral tail)
    (opensLine : Bool)
    (cs : List Char) :
    headerAhead opensLine (cs ++ tail) = true ↔ headerAhead opensLine cs = true ∧
      (dropDecorations (cs.dropWhile isIdentifierChar)).dropWhile isGap ≠ [] := by
  rw [headerAhead_iff, headerAhead_iff]
  simp only [takeWhile_append_tail htail (p := isIdentifierChar) (by decide),
    dropWhile_append_tail htail (p := isIdentifierChar) (by decide),
    dropWhile_append_tail htail (p := isGap) (by decide), dropDecorations_append_tail htail,
    List.length_append, Nat.add_lt_add_iff_right]
  have hletter : (∃ first ∈ (cs ++ tail).head?, isAsciiLetter first = true) ↔
      ∃ first ∈ cs.head?, isAsciiLetter first = true := by
    cases cs with
    | nil => obtain ⟨quote, more, rfl, rfl | rfl⟩ := htail <;> simp [isAsciiLetter]
    | cons c cs => simp
  rw [hletter]
  generalize dropDecorations (cs.dropWhile isIdentifierChar) = rest
  have hlist : (∃ list, rest ++ tail = '(' :: list ∧ attributesAhead list = true) ↔
      ∃ list, rest = '(' :: list ∧ attributesAhead list = true := by
    cases rest with
    | nil => obtain ⟨quote, more, rfl, rfl | rfl⟩ := htail <;> simp
    | cons c rest => simp [and_assoc, attributesAhead_append_tail htail]
  rw [hlist, ne_eq, htail.head?_append_iff (by decide), htail.head?_append_iff (by decide)]
  cases hdrop : rest.dropWhile isGap with
  | nil =>
      have hline : ¬LineEnds tail := by
        obtain ⟨quote, more, rfl, rfl | rfl⟩ := htail <;> simp [LineEnds]
      have hparen : ¬∃ list, rest = '(' :: list ∧ attributesAhead list = true := by
        rintro ⟨list, rfl, -⟩
        exact absurd (List.dropWhile_eq_nil_iff.1 hdrop '(' List.mem_cons_self) (by decide)
      simp [hline, hparen]
  | cons c more =>
      simp [LineEnds]

/-- Within a line a quote has no part in the decision. -/
theorem headerAhead_false_append_tail
    (htail : StartsLiteral tail)
    (cs : List Char) :
    headerAhead false (cs ++ tail) = headerAhead false cs := by
  rw [Bool.eq_iff_iff, headerAhead_append_tail_iff htail, and_iff_left_iff_imp, headerAhead_iff]
  rintro ⟨-, ⟨list, hlist, -⟩ | ⟨-, hbrace | ⟨-, hopens, -⟩⟩⟩ hnil
  · rw [hlist] at hnil
    exact absurd (List.dropWhile_eq_nil_iff.1 hnil '(' List.mem_cons_self) (by decide)
  · simp [hnil] at hbrace
  · cases hopens

end Lookahead

section Reading

variable {tail : List Char}

/-- A literal that is closed stays as it is. -/
theorem literal_append_tail
    {quote : Char}
    {cs value : List Char}
    {position : Position}
    {stop : Cursor}
    (hread : literal quote cs position = some (value, stop))
    (tail : List Char) :
    literal quote (cs ++ tail) position = some (value, stop.extend tail) := by
  fun_induction literal quote cs position generalizing value stop with
  | case1 => simp at hread
  | case2 => simp at hread
  | case3 c rest position ih =>
      obtain ⟨⟨value', stop'⟩, hread', heq⟩ := Option.map_eq_some_iff.1 hread
      simp only [Prod.mk.injEq] at heq
      obtain ⟨rfl, rfl⟩ := heq
      rw [List.cons_append, List.cons_append, literal, ih hread', Option.map_some]
  | case4 rest position hlast hescape =>
      simp only [Option.some.injEq, Prod.mk.injEq] at hread
      obtain ⟨rfl, rfl⟩ := hread
      rw [List.cons_append, literal_cons (ne_backslash hlast hescape), if_pos rfl]
      rfl
  | case5 c rest position hlast hescape hinside ih =>
      obtain ⟨⟨value', stop'⟩, hread', heq⟩ := Option.map_eq_some_iff.1 hread
      simp only [Prod.mk.injEq] at heq
      obtain ⟨rfl, rfl⟩ := heq
      rw [List.cons_append, literal_cons (ne_backslash hlast hescape), if_neg hinside, ih hread',
        Option.map_some]

/-- In an attribute list, a quote opens a literal. -/
theorem attributeList_literal
    {quote : Char}
    (hquote : (quote = '"' || quote = '\'') = true)
    {rest value : List Char}
    {position : Position}
    {stop : Cursor}
    (hread : literal quote rest (position.next quote) = some (value, stop))
    (opened : Position) :
    attributeList opened ⟨quote :: rest, position⟩ =
      (attributeList opened stop).map
        (followedBy ⟨.stringLiteral, String.ofList value, position⟩) := by
  have hother : ¬Text.isBlank quote = true ∧ quote ≠ ')' ∧ quote ≠ ':' ∧ quote ≠ ',' := by
    rw [Bool.or_eq_true, decide_eq_true_eq, decide_eq_true_eq] at hquote
    rcases hquote with rfl | rfl <;> decide
  rw [attributeList, if_neg hother.1, if_neg hother.2.1, if_neg hother.2.2.1, if_neg hother.2.2.2,
    if_pos hquote]
  split
  · next hnone => simp [hread] at hnone
  · next value' stop' hsome =>
      rw [hread, Option.some.injEq, Prod.mk.injEq] at hsome
      obtain ⟨rfl, rfl⟩ := hsome
      rfl

/-- A list that is closed is read in the same way in a longer text. -/
theorem attributeList_extend
    (htail : StartsLiteral tail)
    {opened : Position}
    {c stop : Cursor}
    {tokens : List Token}
    (hread : attributeList opened c = .ok (tokens, stop)) :
    attributeList opened (c.extend tail) = .ok (tokens, stop.extend tail) := by
  fun_induction attributeList opened c generalizing tokens stop with
  | case1 => simp at hread
  | case2 first rest position after hblank =>
      rename_i ih
      rw [Cursor.extend, List.cons_append, attributeList_blank hblank]
      exact ih hread
  | case3 rest position after =>
      rename_i hblank
      simp only [Except.ok.injEq, Prod.mk.injEq] at hread
      obtain ⟨rfl, rfl⟩ := hread
      rw [Cursor.extend, List.cons_append, attributeList, if_neg hblank, if_pos rfl]
      rfl
  | case4 rest position after hblank hclose =>
      rename_i ih
      obtain ⟨more, hmore, rfl⟩ := exists_of_map_followedBy hread
      rw [Cursor.extend, List.cons_append, attributeList, if_neg hblank, if_neg hclose, if_pos rfl]
      exact congrArg (Except.map _) (ih hmore)
  | case5 rest position after hblank hclose hcolon =>
      rename_i ih
      obtain ⟨more, hmore, rfl⟩ := exists_of_map_followedBy hread
      rw [Cursor.extend, List.cons_append, attributeList, if_neg hblank, if_neg hclose,
        if_neg hcolon, if_pos rfl]
      exact congrArg (Except.map _) (ih hmore)
  | case6 => simp at hread
  | case7 first rest position hblank hclose hcolon hcomma hquote value literalStop hliteral ih =>
      obtain ⟨more, hmore, rfl⟩ := exists_of_map_followedBy hread
      rw [Cursor.extend, List.cons_append,
        attributeList_literal hquote (literal_append_tail hliteral tail)]
      exact congrArg (Except.map _) (ih hmore)
  | case8 first rest position hblank hclose hcolon hcomma hquote hstart name =>
      rename_i ih
      obtain ⟨more, hmore, rfl⟩ := exists_of_map_followedBy hread
      rw [Cursor.extend, List.cons_append, attributeList, if_neg hblank, if_neg hclose,
        if_neg hcolon, if_neg hcomma, if_neg hquote, if_pos hstart,
        takeWhile_append_tail htail (by decide), dropWhile_append_tail htail (by decide)]
      exact congrArg (Except.map _) (ih hmore)
  | case9 => simp at hread

/-- Puts tokens in front of what has been read behind them. -/
def withFront (front : List Token) (read : List Token × Cursor) : List Token × Cursor :=
  (front ++ read.1, read.2)

theorem map_followedBy_map_withFront
    (t : Token)
    (front : List Token)
    (read : Except TokenError (List Token × Cursor)) :
    (read.map (withFront front)).map (followedBy t) = read.map (withFront (t :: front)) := by
  cases read <;> rfl

/-- A list that is still open at the end of the text is read on from there. -/
theorem attributeList_extend_of_open
    {opened place : Position}
    {c : Cursor}
    (hread : attributeList opened c = .error ⟨.unterminatedAttributes, place⟩) :
    ∃ front, ∀ tail, StartsLiteral tail →
      attributeList opened (c.extend tail) =
        (attributeList opened ⟨tail, c.position.after c.rest⟩).map (withFront front) := by
  have hfail : ∀ {t : Token} {found : Except TokenError (List Token × Cursor)} {e : TokenError},
      found.map (followedBy t) = .error e → found = .error e := by
    intro t found e hfound
    cases found with
    | ok read => simp [Except.map] at hfound
    | error e' => simpa [Except.map] using hfound
  fun_induction attributeList opened c with
  | case1 position =>
      refine ⟨[], fun tail _ => ?_⟩
      rw [Cursor.extend, List.nil_append, Position.after_nil]
      cases attributeList opened ⟨tail, position⟩ <;> rfl
  | case2 first rest position after hblank ih =>
      obtain ⟨front, hfront⟩ := ih hread
      refine ⟨front, fun tail htail => ?_⟩
      rw [Cursor.extend, List.cons_append, attributeList_blank hblank]
      exact hfront tail htail
  | case3 => simp at hread
  | case4 rest position after hblank hclose ih =>
      obtain ⟨front, hfront⟩ := ih (hfail hread)
      refine ⟨single .colon ':' position :: front, fun tail htail => ?_⟩
      rw [Cursor.extend, List.cons_append, attributeList, if_neg hblank, if_neg hclose, if_pos rfl,
        ← map_followedBy_map_withFront]
      exact congrArg (Except.map _) (hfront tail htail)
  | case5 rest position after hblank hclose hcolon ih =>
      obtain ⟨front, hfront⟩ := ih (hfail hread)
      refine ⟨single .comma ',' position :: front, fun tail htail => ?_⟩
      rw [Cursor.extend, List.cons_append, attributeList, if_neg hblank, if_neg hclose,
        if_neg hcolon, if_pos rfl, ← map_followedBy_map_withFront]
      exact congrArg (Except.map _) (hfront tail htail)
  | case6 => simp at hread
  | case7 first rest position hblank hclose hcolon hcomma hquote value stop hliteral ih =>
      obtain ⟨front, hfront⟩ := ih (hfail hread)
      refine ⟨⟨.stringLiteral, String.ofList value, position⟩ :: front, fun tail htail => ?_⟩
      -- the list is open behind this literal, so the literal ends before the end of the text
      obtain ⟨body, hrest, hplace, -⟩ := quotes_of_literal hliteral
      have hend : stop.position.after stop.rest = position.after (first :: rest) := by
        simp [hrest, hplace]
      rw [Cursor.extend, List.cons_append,
        attributeList_literal hquote (literal_append_tail hliteral tail), ← hend,
        ← map_followedBy_map_withFront]
      exact congrArg (Except.map _) (hfront tail htail)
  | case8 first rest position hblank hclose hcolon hcomma hquote hstart name ih =>
      obtain ⟨front, hfront⟩ := ih (hfail hread)
      have hend : position.after (first :: rest) =
          (position.after name).after (rest.dropWhile isAttributeChar) := by
        rw [← Position.after_append, List.cons_append, List.takeWhile_append_dropWhile]
      refine ⟨⟨.identifier, String.ofList (name.filter (· != colourMark)), position⟩ :: front,
        fun tail htail => ?_⟩
      rw [Cursor.extend, List.cons_append, attributeList, if_neg hblank, if_neg hclose,
        if_neg hcolon, if_neg hcomma, if_neg hquote, if_pos hstart,
        takeWhile_append_tail htail (by decide), dropWhile_append_tail htail (by decide),
        ← map_followedBy_map_withFront, hend]
      exact congrArg (Except.map _) (hfront tail htail)
  | case9 => simp at hread

/-- A path leads to the end of the text that it has begun in. -/
theorem Passes.after_rest
    {inside after : Bool}
    {c stop : Cursor}
    {tokens : List Token}
    (h : Passes inside c tokens stop after) :
    c.position.after c.rest = stop.position.after stop.rest := by
  induction h with
  | refl inside c =>
      rfl
  | blank hc hrest ih =>
      exact ih
  | token hspells hposition hkind hrest ih =>
      rw [Position.after_append]
      exact ih

/-- The tag of a header with its classes and ids. -/
def tagTokens (c : Cursor) : List Token :=
  ⟨.identifier, String.ofList (c.span isIdentifierChar).1, c.position⟩ ::
    (decorations (c.span isIdentifierChar).2).1

/-- The place behind them. -/
def tagStop (c : Cursor) : Cursor := (decorations (c.span isIdentifierChar).2).2

theorem tagTokens_extend
    (htail : StartsLiteral tail)
    (c : Cursor) :
    tagTokens (c.extend tail) = tagTokens c ∧
      tagStop (c.extend tail) = (tagStop c).extend tail := by
  have hspan := c.span_extend htail (p := isIdentifierChar) (by decide)
  have hnames := decorations_extend htail (c.span isIdentifierChar).2
  constructor
  · rw [tagTokens, tagTokens, hspan, hnames]
    rfl
  · rw [tagStop, tagStop, hspan, hnames]

theorem rest_tagStop
    (c : Cursor) :
    (tagStop c).rest = dropDecorations (c.rest.dropWhile isIdentifierChar) :=
  rest_decorations _

theorem after_tagStop
    (c : Cursor) :
    (tagStop c).position.after (tagStop c).rest = c.position.after c.rest := by
  have hspan : (c.span isIdentifierChar).2.position.after (c.span isIdentifierChar).2.rest =
      c.position.after c.rest := by
    simp only [Cursor.span]
    rw [← Position.after_append, List.takeWhile_append_dropWhile]
  rw [tagStop, ← (decorations_passes _).after_rest, hspan]

theorem header_of_paren
    {c : Cursor}
    {list : List Char}
    (hlist : (tagStop c).rest = '(' :: list) :
    header c = (attributeList (tagStop c).position ⟨list, (tagStop c).position.next '('⟩).map
      (withFront (tagTokens c ++ [single .parenOpen '(' (tagStop c).position])) := by
  unfold header
  simp only
  split
  · next rest opened heq =>
      have hstop : tagStop c = ⟨'(' :: rest, opened⟩ := heq
      rw [hstop] at hlist ⊢
      obtain rfl : rest = list := by simpa using hlist
      cases attributeList opened ⟨rest, opened.next '('⟩ with
      | error e => rfl
      | ok read => simp [Except.map, withFront, tagTokens]
  · next hnot =>
      have hstop : tagStop c = ⟨'(' :: list, (tagStop c).position⟩ := by
        rw [← hlist]
      exact absurd hstop (hnot list _)

theorem header_of_not_paren
    {c : Cursor}
    (hlist : (tagStop c).rest.head? ≠ some '(') :
    header c = .ok (tagTokens c, tagStop c) := by
  unfold header
  simp only
  split
  · next rest opened heq =>
      have heq' : tagStop c = ⟨'(' :: rest, opened⟩ := heq
      simp [heq'] at hlist
  · rfl

/-- A header that is complete is read in the same way with a literal behind it. -/
theorem header_extend
    (htail : StartsLiteral tail)
    {c stop : Cursor}
    {tokens : List Token}
    (hread : header c = .ok (tokens, stop)) :
    header (c.extend tail) = .ok (tokens, stop.extend tail) := by
  obtain ⟨htokens, hstop⟩ := tagTokens_extend htail c
  by_cases hparen : (tagStop c).rest.head? = some '('
  · obtain ⟨list, hlist⟩ := List.head?_eq_some_iff.1 hparen
    have hlist' : (tagStop (c.extend tail)).rest = '(' :: (list ++ tail) := by
      rw [hstop, Cursor.extend, hlist, List.cons_append]
    rw [header_of_paren hlist] at hread
    rw [header_of_paren hlist', htokens, hstop]
    cases hfound : attributeList (tagStop c).position ⟨list, (tagStop c).position.next '('⟩ with
    | error e =>
        simp [hfound, Except.map] at hread
    | ok found =>
        have hextended := attributeList_extend htail hfound
        simp only [hfound, Except.map, withFront, Except.ok.injEq, Prod.mk.injEq] at hread
        obtain ⟨rfl, rfl⟩ := hread
        simp only [Cursor.extend] at hextended
        simp only [Cursor.extend, hextended, Except.map, withFront]
  · rw [header_of_not_paren hparen, Except.ok.injEq, Prod.mk.injEq] at hread
    obtain ⟨rfl, rfl⟩ := hread
    rw [header_of_not_paren, htokens, hstop]
    rwa [hstop, Cursor.extend, ne_eq, htail.head?_append_iff (by decide)]

/-- A header can be left open in its attribute list. -/
theorem header_extend_of_open
    {c : Cursor}
    {place : Position}
    (hread : header c = .error ⟨.unterminatedAttributes, place⟩) :
    (∃ list, (tagStop c).rest = '(' :: list) ∧
      ∃ opened front, ∀ tail, StartsLiteral tail →
        header (c.extend tail) =
          (attributeList opened ⟨tail, c.position.after c.rest⟩).map (withFront front) := by
  by_cases hparen : (tagStop c).rest.head? = some '('
  · obtain ⟨list, hlist⟩ := List.head?_eq_some_iff.1 hparen
    refine ⟨⟨list, hlist⟩, ?_⟩
    rw [header_of_paren hlist] at hread
    cases hfound : attributeList (tagStop c).position ⟨list, (tagStop c).position.next '('⟩ with
    | ok found =>
        simp [hfound, Except.map] at hread
    | error e =>
        simp only [hfound, Except.map, Except.error.injEq] at hread
        subst hread
        obtain ⟨front, hfront⟩ := attributeList_extend_of_open hfound
        have hend := after_tagStop c
        rw [hlist, Position.after_cons] at hend
        refine ⟨(tagStop c).position, tagTokens c ++
          single .parenOpen '(' (tagStop c).position :: front, fun tail htail => ?_⟩
        obtain ⟨htokens, hstop⟩ := tagTokens_extend htail c
        have hlist' : (tagStop (c.extend tail)).rest = '(' :: (list ++ tail) := by
          rw [hstop, Cursor.extend, hlist, List.cons_append]
        have hfront' := hfront tail htail
        simp only [Cursor.extend, hend] at hfront'
        rw [header_of_paren hlist', htokens, hstop]
        simp only [Cursor.extend, hfront']
        cases attributeList (tagStop c).position ⟨tail, c.position.after c.rest⟩ with
        | error e => rfl
        | ok read => simp [Except.map, withFront]
  · rw [header_of_not_paren hparen] at hread
    cases hread

end Reading

section Lines

variable {tail : List Char}

/-- A run of text that ends before the end of the text ends there in a longer text, too. -/
theorem textSpan_append_tail
    (htail : StartsLiteral tail)
    {afterBlank : Bool}
    {cs : List Char}
    (hend : (textSpan afterBlank cs).2 ≠ []) :
    textSpan afterBlank (cs ++ tail) =
      ((textSpan afterBlank cs).1, (textSpan afterBlank cs).2 ++ tail) := by
  induction cs generalizing afterBlank with
  | nil =>
      exact absurd rfl hend
  | cons c cs ih =>
      have hahead : headerAhead false (c :: (cs ++ tail)) = headerAhead false (c :: cs) :=
        headerAhead_false_append_tail htail (c :: cs)
      rw [List.cons_append]
      unfold textSpan at hend ⊢
      rw [hahead]
      split_ifs at hend ⊢
      · rfl
      · rfl
      · rw [ih hend]

theorem splitLine_append_tail
    {cs : List Char}
    (hend : (splitLine cs).2 ≠ [])
    (tail : List Char) :
    '\n' ∈ cs ∧ splitLine (cs ++ tail) = ((splitLine cs).1, (splitLine cs).2 ++ tail) := by
  fun_induction splitLine cs with
  | case1 => exact absurd rfl hend
  | case2 cs => exact ⟨List.mem_cons_self, by simp [splitLine]⟩
  | case3 c cs hc ih =>
      obtain ⟨hmem, hsplit⟩ := ih hend
      exact ⟨List.mem_cons_of_mem c hmem, by simp [splitLine, hc, hsplit]⟩

theorem all_isBlank_append_tail
    (htail : StartsLiteral tail)
    (cs : List Char) :
    ((cs ++ tail).takeWhile (· != '\n')).all Text.isBlank =
      ((cs.takeWhile (· != '\n')).all Text.isBlank && cs.contains '\n') := by
  induction cs with
  | nil =>
      obtain ⟨quote, more, rfl, rfl | rfl⟩ := htail <;> simp [Text.isBlank]
  | cons c cs ih =>
      by_cases hc : c = '\n'
      · simp [hc]
      · simp [hc, Ne.symm hc, ih, Bool.and_assoc]

/-- A line with a quote is not blank. -/
theorem isBlankLine_append_tail
    (htail : StartsLiteral tail)
    (cs : List Char) :
    isBlankLine (cs ++ tail) = (isBlankLine cs && cs.contains '\n') := by
  have hfeed : cs.contains '\n' = (cs.dropWhile isMargin).contains '\n' := by
    induction cs with
    | nil => rfl
    | cons c cs ih =>
        by_cases hc : isMargin c = true
        · have hne : '\n' ≠ c := by
            rintro rfl
            exact absurd hc (by decide)
          simpa [hc, hne] using ih
        · simp [hc]
  unfold isBlankLine
  rw [dropWhile_append_tail htail (by decide), hfeed]
  cases cs.dropWhile isMargin with
  | nil =>
      obtain ⟨quote, more, rfl, rfl | rfl⟩ := htail <;> rfl
  | cons c rest =>
      have hall := all_isBlank_append_tail htail (c :: rest)
      rw [List.cons_append] at hall ⊢
      simp only [hall, Bool.and_assoc]

theorem skipBlankLines_extend
    (htail : StartsLiteral tail)
    {c : Cursor}
    (hend : (skipBlankLines c).rest ≠ []) :
    skipBlankLines (c.extend tail) = (skipBlankLines c).extend tail := by
  fun_induction skipBlankLines c with
  | case1 c hblank line rest hempty =>
      exact absurd rfl hend
  | case2 c hblank line rest hempty ih =>
      obtain ⟨hmem, hsplit⟩ := splitLine_append_tail (by simpa [rest] using hempty) tail
      have hblank' : isBlankLine (c.extend tail).rest = true := by
        rw [Cursor.extend, isBlankLine_append_tail htail, hblank, List.contains_iff_mem.2 hmem]
        rfl
      rw [skipBlankLines, if_pos hblank']
      simp only [Cursor.extend, hsplit]
      rw [if_neg (by simpa [rest] using fun h => absurd h (by simpa [rest] using hempty))]
      exact ih hend
  | case3 c hblank =>
      rw [skipBlankLines, if_neg]
      simp [Cursor.extend, isBlankLine_append_tail htail, hblank]

end Lines

end Token

namespace Scanner

open Token

variable {tail : List Char}

/-- The same state in a text that goes on with `tail`. -/
def extend (s : Scanner) (tail : List Char) : Scanner := { s with cursor := s.cursor.extend tail }

theorem extend_mk
    (cs tail : List Char)
    (position : Position)
    (lineWidth : Nat)
    (fresh : Bool) :
    extend ⟨⟨cs, position⟩, lineWidth, fresh⟩ tail = ⟨⟨cs ++ tail, position⟩, lineWidth, fresh⟩ :=
  rfl

/-- A line starts in the same way with a literal at the end of the text. -/
theorem beginLine_extend
    (htail : StartsLiteral tail)
    {c : Cursor}
    (hend : (skipBlankLines c).rest ≠ [])
    (lineWidth : Nat) :
    beginLine (c.extend tail) lineWidth =
      ((beginLine c lineWidth).1, (beginLine c lineWidth).2.extend tail) := by
  unfold beginLine
  rw [skipBlankLines_extend htail hend]
  generalize skipBlankLines c = d at hend ⊢
  have hmargin := d.span_extend htail (p := isMargin) (by decide)
  have hempty : (d.extend tail).rest.isEmpty = false := by
    simp [Cursor.extend, hend]
  have hempty' : d.rest.isEmpty = false := by
    simpa using hend
  simp only [hempty, hempty', hmargin, Bool.false_eq_true, if_false]
  split
  · rfl
  · split <;> rfl

/-- Nothing but gaps can be read. -/
theorem isOk_tokens_of_gaps
    {rest : List Char}
    (hgaps : ∀ c ∈ rest, isGap c = true)
    (position : Position)
    (lineWidth : Nat)
    (fresh : Bool) :
    (tokens ⟨⟨rest, position⟩, lineWidth, fresh⟩).isOk = true := by
  induction rest generalizing position with
  | nil =>
      rw [tokens_nil]
      rfl
  | cons c rest ih =>
      rw [List.forall_mem_cons] at hgaps
      rw [tokens_gap hgaps.1]
      exact ih hgaps.2 (position.next c)

/-- A run that fails has not begun at the end of the text. -/
theorem rest_ne_nil_of_fail
    {s : Scanner}
    (hfail : s.tokens.isOk = false) :
    s.cursor.rest ≠ [] := by
  intro hnil
  obtain ⟨⟨_, position⟩, lineWidth, fresh⟩ := s
  subst hnil
  rw [tokens_nil] at hfail
  cases hfail

theorem rest_skipBlankLines_ne_nil
    {c : Cursor}
    {lineWidth : Nat}
    (hbegin : (beginLine c lineWidth).2.cursor.rest ≠ []) :
    (skipBlankLines c).rest ≠ [] := by
  intro hnil
  exact hbegin (by simp [beginLine, hnil])

/-- A step that does not lead to the end of the text is made in a longer text, too. -/
theorem step_extend
    (htail : StartsLiteral tail)
    {s next : Scanner}
    {c : Char}
    {rest : List Char}
    {read : List Token}
    (hrest : s.cursor.rest = c :: rest)
    (hstep : s.step c rest = .ok (read, next))
    (hfail : next.tokens.isOk = false) :
    (s.extend tail).step c (rest ++ tail) = .ok (read, next.extend tail) := by
  obtain ⟨⟨_, position⟩, lineWidth, fresh⟩ := s
  subst hrest
  have hnext := rest_ne_nil_of_fail hfail
  cases steps_of_step hstep with
  | newline hline =>
      subst hline
      have hbegin := beginLine_extend htail (rest_skipBlankLines_ne_nil hnext) lineWidth
      simp only [Cursor.extend] at hbegin
      simp only [extend_mk, step, if_true, hbegin]
  | gap hgap =>
      have hline : c ≠ '\n' := by
        rintro rfl
        exact absurd hgap (by decide)
      simp only [step, hline, hgap, if_true, if_false]
      rfl
  | braceOpen hbrace =>
      subst hbrace
      rfl
  | braceClose hbrace =>
      subst hbrace
      rfl
  | @header hgap hmark hahead read stop hread =>
      -- a header that only the end of the text makes one leaves gaps behind it, and these can be
      -- read
      have hgaps : (tagStop ⟨c :: rest, position⟩).rest.dropWhile isGap ≠ [] := by
        intro hnil
        have hall := List.dropWhile_eq_nil_iff.1 hnil
        have hparen : (tagStop ⟨c :: rest, position⟩).rest.head? ≠ some '(' := by
          intro hhead
          exact absurd (hall '(' (List.mem_of_mem_head? hhead)) (by decide)
        rw [header_of_not_paren hparen] at hread
        cases hread
        rw [isOk_tokens_of_gaps hall] at hfail
        cases hfail
      rw [rest_tagStop] at hgaps
      have hahead' := (headerAhead_append_tail_iff htail fresh (c :: rest)).2 ⟨hahead, hgaps⟩
      have hread' := header_extend htail hread
      simp only [Cursor.extend, List.cons_append] at hahead' hread'
      simp only [extend_mk, step, hmark, hgap, hahead', hread', if_true, if_false,
        Bool.false_eq_true]
      rfl
  | text hgap hmark hahead =>
      have hahead' : headerAhead fresh (c :: (rest ++ tail)) = false := by
        rw [Bool.eq_false_iff, ← List.cons_append]
        intro htrue
        have hshort := ((headerAhead_append_tail_iff htail fresh (c :: rest)).1 htrue).1
        simp only at hahead
        rw [hahead] at hshort
        cases hshort
      have hspan := textSpan_append_tail htail hnext
      simp only [List.cons_append] at hspan
      simp only [extend_mk, List.cons_append, step, hmark, hgap, hahead', if_false,
        Bool.false_eq_true]
      simp only [textRun, hspan]
      rfl

/-- The tokens from a place in an attribute list to the end of the source. -/
def insideList
    (opened : Position)
    (lineWidth : Nat)
    (c : Cursor) : Except TokenError (List Token) :=
  match attributeList opened c with
  | .error e => .error e
  | .ok (list, stop) => (tokens ⟨stop, lineWidth, false⟩).map (list ++ ·)

theorem map_append_map
    (front behind : List Token)
    (read : Except TokenError (List Token)) :
    (read.map (behind ++ ·)).map (front ++ ·) = read.map ((front ++ behind) ++ ·) := by
  cases read with
  | error e => rfl
  | ok more => simp [Except.map]

/-- A run that fails in an open list comes to that list in a longer text and goes on there. -/
theorem tokens_extend_of_open
    {s : Scanner}
    {place : Position}
    (hfail : s.tokens = .error ⟨.unterminatedAttributes, place⟩) :
    ∃ opened lineWidth front, ∀ tail, StartsLiteral tail →
      (s.extend tail).tokens =
        (insideList opened lineWidth ⟨tail, s.cursor.position.after s.cursor.rest⟩).map
          (front ++ ·) := by
  fun_induction Scanner.tokens s with
  | case1 s hrest =>
      simp at hfail
  | case2 s c rest hrest e hstep =>
      obtain ⟨⟨_, position⟩, lineWidth, fresh⟩ := s
      subst hrest
      obtain ⟨hmark, hgap, hahead, hread⟩ := header_of_step_error hstep
      simp only [Except.error.injEq] at hfail
      subst hfail
      -- the header has a parenthesis, so it is one in the longer text, too
      obtain ⟨⟨list, hlist⟩, opened, front, hfront⟩ := header_extend_of_open hread
      rw [rest_tagStop] at hlist
      have hopen : ('(' :: list).dropWhile isGap ≠ [] := by
        rw [List.dropWhile_cons_of_neg (by decide)]
        exact List.cons_ne_nil _ _
      refine ⟨opened, lineWidth, front, fun tail htail => ?_⟩
      have hahead' := (headerAhead_append_tail_iff htail fresh (c :: rest)).2
        ⟨hahead, by rw [hlist]; exact hopen⟩
      have hread' := hfront tail htail
      simp only [Cursor.extend, List.cons_append] at hahead' hread'
      have hstep' : step ⟨⟨c :: (rest ++ tail), position⟩, lineWidth, fresh⟩ c (rest ++ tail) =
          (attributeList opened ⟨tail, position.after (c :: rest)⟩).map fun found =>
            (front ++ found.1, ⟨found.2, lineWidth, false⟩) := by
        simp only [step, hmark, hgap, hahead', hread', if_true, if_false, Bool.false_eq_true]
        cases attributeList opened ⟨tail, position.after (c :: rest)⟩ <;> rfl
      rw [extend_mk, insideList]
      simp only [List.cons_append]
      cases hfound : attributeList opened ⟨tail, position.after (c :: rest)⟩ with
      | error e =>
          rw [hfound] at hstep'
          exact tokens_of_step_error rfl hstep'
      | ok found =>
          obtain ⟨inside, stop⟩ := found
          rw [hfound] at hstep'
          simp only
          rw [tokens_of_step rfl hstep', map_append_map]
  | case3 s c rest hrest read next hstep ih =>
      cases hmore : next.tokens with
      | ok more =>
          simp [hmore, Except.map] at hfail
      | error e =>
          simp only [hmore, Except.map, Except.error.injEq] at hfail
          subst hfail
          obtain ⟨opened, lineWidth, front, hfront⟩ := ih hmore
          refine ⟨opened, lineWidth, read ++ front, fun tail htail => ?_⟩
          have hstep' := step_extend htail hrest hstep (by rw [hmore]; rfl)
          have hrest' : (s.extend tail).cursor.rest = c :: (rest ++ tail) := by
            rw [extend, Cursor.extend, hrest, List.cons_append]
          rw [tokens_of_step hrest' hstep', hfront tail htail, map_append_map,
            (step_passes hrest hstep).after_rest]

end Scanner

namespace Token

/-- Where a text ends in an open attribute list, what follows it is read in that list, if it begins
with a quote. -/
theorem scan_append_of_open
    {source : String}
    {place : Position}
    (hfail : scan source = .error ⟨.unterminatedAttributes, place⟩) :
    ∃ opened lineWidth front, ∀ tail : String, StartsLiteral tail.toList →
      scan (source ++ tail) =
        (Scanner.insideList opened lineWidth
          ⟨tail.toList, Position.start.after source.toList⟩).map (front ++ ·) := by
  unfold scan at hfail
  simp only at hfail
  cases hline : (Scanner.beginLine ⟨source.toList, Position.start⟩ 0).2.tokens with
  | ok more =>
      simp [hline, Except.map] at hfail
  | error e =>
      simp only [hline, Except.map, Except.error.injEq] at hfail
      subst hfail
      have hskip := Scanner.rest_skipBlankLines_ne_nil
        (Scanner.rest_ne_nil_of_fail (by rw [hline]; rfl))
      obtain ⟨opened, lineWidth, front, hfront⟩ := Scanner.tokens_extend_of_open hline
      refine ⟨opened, lineWidth, (Scanner.beginLine ⟨source.toList, Position.start⟩ 0).1 ++ front,
        fun tail htail => ?_⟩
      have hbegin := Scanner.beginLine_extend htail hskip 0
      have hend := (Scanner.beginLine_passes ⟨source.toList, Position.start⟩ 0).after_rest
      simp only [Cursor.extend] at hbegin
      rw [scan, String.toList_append, hbegin]
      simp only
      rw [hfront tail.toList htail, Scanner.map_append_map, ← hend]

end Token

end BlockMarkup
