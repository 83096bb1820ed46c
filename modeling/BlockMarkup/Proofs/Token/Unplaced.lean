import BlockMarkup.Proofs.Token.OpenList

/-!
# What is read does not depend on places

Tokens carry their positions, and the scanner passes a position along with the characters ahead. No
decision is made on it: from the same characters the same tokens are read, up to their places, and
the same characters are left. So an edit in front of a place of the source moves the tokens behind
it and does nothing else to them.
-/

namespace BlockMarkup

namespace Token

/-- The same characters ahead, at another place. -/
def Cursor.moved (c : Cursor) (place : Position) : Cursor := ⟨c.rest, place⟩

/-- What has been read and the characters ahead, without their places. -/
def unplaced (read : List Token × Cursor) : List (TokenKind × String) × List Char :=
  (read.1.map bare, read.2.rest)

/-- Decorations are read in the same way at every place. -/
theorem unplaced_decorations
    (c : Cursor)
    (place : Position) :
    unplaced (decorations (c.moved place)) = unplaced (decorations c) := by
  fun_induction decorations c generalizing place with
  | case1 mark first rest position hmark _ name tokens stop hread ih =>
      have ih' := ih ((place.next mark).after name)
      simp only [unplaced, Cursor.moved, hread, Prod.mk.injEq] at ih'
      simp only [Cursor.moved, decorations, if_pos hmark, unplaced, List.map_cons, Prod.mk.injEq]
      exact ⟨by rw [ih'.1]; rfl, ih'.2⟩
  | case2 mark first rest position hmark =>
      simp only [Cursor.moved, decorations, if_neg hmark]
      rfl
  | case3 c hshort =>
      obtain ⟨cs, position⟩ := c
      rw [decorations_eq_nil]
      · rfl
      · rintro mark first rest rfl
        exact absurd rfl (hshort mark first rest position)

theorem literal_unplaced
    (quote : Char)
    (cs : List Char)
    (position place : Position) :
    (literal quote cs place).map (fun read => (read.1, read.2.rest)) =
      (literal quote cs position).map (fun read => (read.1, read.2.rest)) := by
  fun_induction literal quote cs position generalizing place with
  | case1 => rfl
  | case2 => rfl
  | case3 c rest position ih =>
      have ih' := congrArg (Option.map fun read : List Char × List Char =>
        (if isEscapable c then c :: read.1 else '\\' :: c :: read.1, read.2))
        (ih ((place.next '\\').next c))
      simpa [literal, Function.comp_def] using ih'
  | case4 rest position hlast hescape =>
      rw [literal_cons (ne_backslash hlast hescape), if_pos rfl]
      rfl
  | case5 c rest position hlast hescape hinside ih =>
      have ih' := congrArg (Option.map fun read : List Char × List Char => (c :: read.1, read.2))
        (ih (place.next c))
      rw [literal_cons (ne_backslash hlast hescape), if_neg hinside]
      simpa [Function.comp_def] using ih'

theorem map_unplaced_map_followedBy
    (t : Token)
    (read : Except TokenError (List Token × Cursor)) :
    (read.map (followedBy t)).toOption.map unplaced =
      (read.toOption.map unplaced).map fun found => (bare t :: found.1, found.2) := by
  cases read <;> rfl

/-- An attribute list is read in the same way at every place. -/
theorem unplaced_attributeList
    (opened place placeOpened : Position)
    (c : Cursor) :
    (attributeList placeOpened (c.moved place)).toOption.map unplaced =
      (attributeList opened c).toOption.map unplaced := by
  fun_induction attributeList opened c generalizing place with
  | case1 position =>
      simp only [Cursor.moved, attributeList]
      rfl
  | case2 first rest position after hblank =>
      rename_i ih
      rw [Cursor.moved, attributeList_blank hblank]
      exact ih (place.next first)
  | case3 rest position after =>
      rename_i hblank
      rw [Cursor.moved, attributeList, if_neg hblank, if_pos rfl]
      rfl
  | case4 rest position after hblank hclose =>
      rename_i ih
      rw [Cursor.moved, attributeList, if_neg hblank, if_neg hclose, if_pos rfl,
        map_unplaced_map_followedBy, map_unplaced_map_followedBy]
      exact congrArg (Option.map _) (ih (place.next ':'))
  | case5 rest position after hblank hclose hcolon =>
      rename_i ih
      rw [Cursor.moved, attributeList, if_neg hblank, if_neg hclose, if_neg hcolon, if_pos rfl,
        map_unplaced_map_followedBy, map_unplaced_map_followedBy]
      exact congrArg (Option.map _) (ih (place.next ','))
  | case6 first rest position hblank hclose hcolon hcomma hquote hliteral =>
      have hsame := literal_unplaced first rest (position.next first) (place.next first)
      rw [hliteral, Option.map_none, Option.map_eq_none_iff] at hsame
      rw [Cursor.moved, attributeList, if_neg hblank, if_neg hclose, if_neg hcolon, if_neg hcomma,
        if_pos hquote]
      split
      · rfl
      · next hsome => simp [hsame] at hsome
  | case7 first rest position hblank hclose hcolon hcomma hquote value stop hliteral =>
      rename_i ih
      have hsame := literal_unplaced first rest (position.next first) (place.next first)
      rw [hliteral, Option.map_some, Option.map_eq_some_iff] at hsame
      obtain ⟨⟨value', stop'⟩, hread, heq⟩ := hsame
      obtain ⟨rfl, hrest⟩ := Prod.mk.inj heq
      -- the list goes on behind the literal, where the two readings again differ in place only
      have hmoved : stop' = stop.moved stop'.position := by
        rw [Cursor.moved, ← hrest]
      rw [Cursor.moved, attributeList_literal hquote hread, map_unplaced_map_followedBy,
        map_unplaced_map_followedBy, hmoved]
      exact congrArg (Option.map _) (ih stop'.position)
  | case8 first rest position hblank hclose hcolon hcomma hquote hstart name =>
      rename_i ih
      rw [Cursor.moved, attributeList, if_neg hblank, if_neg hclose, if_neg hcolon, if_neg hcomma,
        if_neg hquote, if_pos hstart, map_unplaced_map_followedBy, map_unplaced_map_followedBy]
      exact congrArg (Option.map _) (ih (place.after name))
  | case9 first rest position hblank hclose hcolon hcomma hquote hstart =>
      rw [Cursor.moved, attributeList, if_neg hblank, if_neg hclose, if_neg hcolon, if_neg hcomma,
        if_neg hquote, if_neg hstart]
      rfl

theorem unplaced_tag
    (c : Cursor)
    (place : Position) :
    unplaced (tagTokens (c.moved place), tagStop (c.moved place)) =
      unplaced (tagTokens c, tagStop c) := by
  have hnames := unplaced_decorations (c.span isIdentifierChar).2
    ((c.moved place).span isIdentifierChar).2.position
  simp only [unplaced, Prod.mk.injEq] at hnames
  simp only [unplaced, tagTokens, tagStop, List.map_cons, Prod.mk.injEq]
  exact ⟨congrArg₂ List.cons rfl hnames.1, hnames.2⟩

/-- A header is read in the same way at every place. -/
theorem unplaced_header
    (c : Cursor)
    (place : Position) :
    (header (c.moved place)).toOption.map unplaced = (header c).toOption.map unplaced := by
  have htag := unplaced_tag c place
  simp only [unplaced, Prod.mk.injEq] at htag
  by_cases hparen : (tagStop c).rest.head? = some '('
  · obtain ⟨list, hlist⟩ := List.head?_eq_some_iff.1 hparen
    rw [header_of_paren hlist, header_of_paren (htag.2.trans hlist)]
    have hsame := unplaced_attributeList (tagStop c).position
      ((tagStop (c.moved place)).position.next '(') (tagStop (c.moved place)).position
      ⟨list, (tagStop c).position.next '('⟩
    have hfront : ∀ (front : List Token) (read : Except TokenError (List Token × Cursor)),
        (read.map (withFront front)).toOption.map unplaced =
          (read.toOption.map unplaced).map fun found => (front.map bare ++ found.1, found.2) := by
      intro front read
      cases read with
      | error e => rfl
      | ok found => simp [Except.map, Except.toOption, withFront, unplaced]
    simp only [Cursor.moved] at hsame
    rw [hfront, hfront, Cursor.moved, hsame]
    simp only [Cursor.moved] at htag
    simp only [List.map_append, htag.1, List.map_cons, List.map_nil]
    rfl
  · rw [header_of_not_paren hparen, header_of_not_paren (by rwa [htag.2])]
    exact congrArg some (unplaced_tag c place)

theorem rest_skipBlankLines_moved
    (c : Cursor)
    (place : Position) :
    (skipBlankLines (c.moved place)).rest = (skipBlankLines c).rest := by
  fun_induction skipBlankLines c generalizing place with
  | case1 c hblank line rest hempty =>
      rw [skipBlankLines, Cursor.moved, if_pos hblank]
      simp only
      rw [if_pos hempty]
  | case2 c hblank line rest hempty ih =>
      rw [skipBlankLines, Cursor.moved, if_pos hblank]
      simp only
      rw [if_neg hempty]
      exact ih (place.after line)
  | case3 c hblank =>
      rw [skipBlankLines, Cursor.moved, if_neg hblank]

end Token

namespace Scanner

open Token

/-- The same state at another place. -/
def moved (s : Scanner) (place : Position) : Scanner := { s with cursor := s.cursor.moved place }

/-- What has been read and the state behind it, without the places. -/
def unplaced (read : List Token × Scanner) :
    List (TokenKind × String) × List Char × Nat × Bool :=
  (read.1.map bare, read.2.cursor.rest, read.2.lineWidth, read.2.fresh)

theorem eq_moved
    {s t : Scanner}
    {read more : List Token}
    (hsame : unplaced (more, t) = unplaced (read, s)) :
    t = s.moved t.cursor.position := by
  obtain ⟨⟨rest, position⟩, lineWidth, fresh⟩ := t
  simp only [unplaced, Prod.mk.injEq] at hsame
  obtain ⟨-, rfl, rfl, rfl⟩ := hsame
  rfl

theorem unplaced_beginLine
    (c : Cursor)
    (place : Position)
    (lineWidth : Nat) :
    unplaced (beginLine (c.moved place) lineWidth) = unplaced (beginLine c lineWidth) := by
  have hrest := rest_skipBlankLines_moved c place
  unfold beginLine
  generalize skipBlankLines (c.moved place) = d at hrest ⊢
  generalize skipBlankLines c = e at hrest ⊢
  obtain ⟨rest, position⟩ := d
  obtain ⟨_, position'⟩ := e
  subst hrest
  simp only [Cursor.span]
  by_cases hempty : rest.isEmpty = true
  · rw [if_pos hempty, if_pos hempty]
    rfl
  · rw [if_neg hempty, if_neg hempty]
    by_cases hdeeper : lineWidth < marginWidth (rest.takeWhile isMargin)
    · simp [unplaced, hdeeper, bare]
    · by_cases hshallower : marginWidth (rest.takeWhile isMargin) < lineWidth
      · simp [unplaced, hdeeper, hshallower, bare]
      · simp [unplaced, hdeeper, hshallower]

/-- One step is the same at every place. -/
theorem unplaced_step
    (s : Scanner)
    (place : Position)
    (c : Char)
    (rest : List Char) :
    ((s.moved place).step c rest).toOption.map unplaced =
      (s.step c rest).toOption.map unplaced := by
  obtain ⟨⟨cs, position⟩, lineWidth, fresh⟩ := s
  simp only [moved, Cursor.moved, step]
  split
  · have hline := unplaced_beginLine ⟨rest, position.next c⟩ (place.next c) lineWidth
    simp only [unplaced, Cursor.moved, Prod.mk.injEq] at hline
    simp [unplaced, Except.toOption, hline, bare, single]
  · split
    · rfl
    · split
      · rfl
      · split
        · rfl
        · by_cases hahead : headerAhead fresh (c :: rest) = true
          · simp only [hahead, if_true]
            have hread := unplaced_header ⟨c :: rest, position⟩ place
            have hmap : ∀ read : Except TokenError (List Token × Cursor),
                (read.map fun found =>
                  (found.1, (⟨found.2, lineWidth, false⟩ : Scanner))).toOption.map unplaced =
                (read.toOption.map Token.unplaced).map fun found =>
                  (found.1, found.2, lineWidth, false) := by
              intro read
              cases read <;> rfl
            exact (hmap _).trans ((congrArg (Option.map _) hread).trans (hmap _).symm)
          · simp only [hahead]
            rfl

theorem map_bare_map_append
    (front : List Token)
    (read : Except TokenError (List Token)) :
    (read.map (front ++ ·)).toOption.map (List.map bare) =
      (read.toOption.map (List.map bare)).map (front.map bare ++ ·) := by
  cases read <;> simp [Except.map, Except.toOption]

/-- The tokens ahead depend on the characters ahead only, up to their places. -/
theorem tokens_moved
    (s : Scanner)
    (place : Position) :
    (s.moved place).tokens.toOption.map (List.map bare) =
      s.tokens.toOption.map (List.map bare) := by
  fun_induction Scanner.tokens s generalizing place with
  | case1 s hrest =>
      obtain ⟨⟨_, position⟩, lineWidth, fresh⟩ := s
      subst hrest
      rw [moved, Cursor.moved, tokens_nil]
      rfl
  | case2 s c rest hrest e hstep =>
      have hsame := unplaced_step s place c rest
      rw [hstep] at hsame
      cases hmoved : (s.moved place).step c rest with
      | ok found => simp [hmoved, Except.toOption] at hsame
      | error e' =>
          rw [tokens_of_step_error (s := s.moved place) hrest hmoved]
          rfl
  | case3 s c rest hrest read next hstep =>
      rename_i ih
      -- both runs make this step, and the state behind it is the same up to its place
      have hsame := unplaced_step s place c rest
      rw [hstep] at hsame
      cases hmoved : (s.moved place).step c rest with
      | error e => simp [hmoved, Except.toOption] at hsame
      | ok found =>
          obtain ⟨read', next'⟩ := found
          simp only [hmoved, Except.toOption, Option.map_some, Option.some.injEq] at hsame
          rw [tokens_of_step (s := s.moved place) hrest hmoved, map_bare_map_append,
            map_bare_map_append, eq_moved hsame, ih next'.cursor.position, (Prod.mk.inj hsame).1]

/-- A list that is left open is read on in the same way at every place. -/
theorem insideList_moved
    (opened place placeOpened : Position)
    (lineWidth : Nat)
    (c : Cursor) :
    (insideList placeOpened lineWidth (c.moved place)).toOption.map (List.map bare) =
      (insideList opened lineWidth c).toOption.map (List.map bare) := by
  have hsame := unplaced_attributeList opened place placeOpened c
  unfold insideList
  cases hlist : attributeList opened c with
  | error e =>
      rw [hlist] at hsame
      cases hmoved : attributeList placeOpened (c.moved place) with
      | ok read => simp [hmoved, Except.toOption] at hsame
      | error e' => rfl
  | ok read =>
      rw [hlist] at hsame
      cases hmoved : attributeList placeOpened (c.moved place) with
      | error e => simp [hmoved, Except.toOption] at hsame
      | ok read' =>
          obtain ⟨list, stop⟩ := read
          obtain ⟨list', stop'⟩ := read'
          simp only [hmoved, Except.toOption, Option.map_some, Option.some.injEq, Token.unplaced,
            Prod.mk.injEq] at hsame
          have hstop : (⟨stop', lineWidth, false⟩ : Scanner) =
              moved ⟨stop, lineWidth, false⟩ stop'.position := by
            rw [moved, Cursor.moved, ← hsame.2]
          simp only
          rw [map_bare_map_append, map_bare_map_append, hstop, tokens_moved, hsame.1]

end Scanner

end BlockMarkup
