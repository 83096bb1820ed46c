import BlockMarkup.Proofs.Token.Unplaced

/-!
# Writing string literals

Every text can be written as the value of an attribute: between two quotes of one kind, with a
backslash before each backslash and each quote of either kind. In an open attribute list this is
read as one token with that text. What stands behind it is read as if any other literal stood in its
place, up to the places of the tokens.
-/

namespace BlockMarkup

namespace Token

/-- The two quotes that string literals can stand between. -/
inductive Quote where
  | double
  | single
  deriving DecidableEq, Repr

namespace Quote

def char : Quote → Char
  | double => '"'
  | single => '\''

@[simp] theorem isEscapable_char
    (quote : Quote) :
    isEscapable quote.char = true := by
  cases quote <;> rfl

theorem char_ne_backslash
    (quote : Quote) :
    quote.char ≠ '\\' := by
  cases quote <;> decide

theorem opens
    (quote : Quote) :
    (quote.char = '"' || quote.char = '\'') = true := by
  cases quote <;> rfl

end Quote

/-- A character inside a literal. -/
def escaped (c : Char) : List Char := if c ∈ ['\\', '"', '\''] then ['\\', c] else [c]

theorem escaped_eq
    (c : Char) :
    escaped c = if isEscapable c then ['\\', c] else [c] := by
  have hsame : c ∈ ['\\', '"', '\''] ↔ isEscapable c = true := by
    simp only [isEscapable, List.mem_cons, List.not_mem_nil, Bool.or_eq_true, decide_eq_true_eq]
    tauto
  simp only [escaped, hsame]

/-- The literal for a text. -/
def asLiteral (quote : Quote) (value : String) : String :=
  String.ofList (quote.char :: (value.toList.flatMap escaped ++ [quote.char]))

/-- The token of a literal with the text `value` that stands behind `front`. -/
def literalBehind (front value : String) : Token :=
  ⟨.stringLiteral, value, Position.start.after front.toList⟩

theorem startsLiteral_asLiteral
    (quote : Quote)
    (value back : String) :
    StartsLiteral (asLiteral quote value ++ back).toList := by
  refine ⟨quote.char, value.toList.flatMap escaped ++ quote.char :: back.toList, ?_, ?_⟩
  · simp [asLiteral]
  · simpa using quote.opens

/-- A literal is read back, whatever stands behind it. -/
theorem literal_escaped
    (quote : Quote)
    (value rest : List Char)
    (position : Position) :
    literal quote.char (value.flatMap escaped ++ quote.char :: rest) position =
      some (value, ⟨rest, position.after (value.flatMap escaped ++ [quote.char])⟩) := by
  induction value generalizing position with
  | nil =>
      rw [List.flatMap_nil, List.nil_append, literal_cons quote.char_ne_backslash, if_pos rfl]
      rfl
  | cons c value ih =>
      rw [List.flatMap_cons, List.append_assoc, List.append_assoc, escaped_eq]
      -- what has a backslash before it does not end the literal, and what has none is no quote
      by_cases hc : isEscapable c = true
      · rw [if_pos hc, List.cons_append, List.cons_append, List.nil_append, literal, ih,
          Option.map_some]
        simp only [hc, if_true]
        rfl
      · have hquote : c ≠ quote.char := by
          rintro rfl
          exact hc quote.isEscapable_char
        have hslash : c ≠ '\\' := by
          rintro rfl
          exact hc rfl
        rw [if_neg hc, List.cons_append, List.nil_append, literal_cons hslash, if_neg hquote, ih,
          Option.map_some]
        rfl

/-- Inside a list, a literal is read as its value. -/
theorem insideList_asLiteral
    (opened : Position)
    (lineWidth : Nat)
    (quote : Quote)
    (value back : String)
    (position : Position) :
    Scanner.insideList opened lineWidth ⟨(asLiteral quote value ++ back).toList, position⟩ =
      (Scanner.insideList opened lineWidth
        ⟨back.toList, position.after (asLiteral quote value).toList⟩).map
          (⟨.stringLiteral, value, position⟩ :: ·) := by
  have hread := literal_escaped quote value.toList back.toList (position.next quote.char)
  have hchars : (asLiteral quote value ++ back).toList =
      quote.char :: (value.toList.flatMap escaped ++ quote.char :: back.toList) := by
    simp [asLiteral]
  have hplace : position.after (asLiteral quote value).toList =
      (position.next quote.char).after (value.toList.flatMap escaped ++ [quote.char]) := by
    simp [asLiteral]
  rw [hchars, hplace, Scanner.insideList, attributeList_literal quote.opens hread,
    String.ofList_toList, Scanner.insideList]
  cases attributeList opened _ with
  | error e => rfl
  | ok read =>
      obtain ⟨list, stop⟩ := read
      simp only [Except.map, followedBy]
      cases Scanner.tokens ⟨stop, lineWidth, false⟩ <;> rfl

/-- Whether the rest of a list and of the source can be read does not depend on their place. -/
theorem insideList_alike
    (opened : Position)
    (lineWidth : Nat)
    (cs : List Char) :
    (∃ rest, ∀ position, ∃ behind,
        Scanner.insideList opened lineWidth ⟨cs, position⟩ = .ok behind ∧ behind.map bare = rest) ∨
      ∀ position, (Scanner.insideList opened lineWidth ⟨cs, position⟩).isOk = false := by
  have hmoved : ∀ position : Position,
      (Scanner.insideList opened lineWidth ⟨cs, position⟩).toOption.map (List.map bare) =
        (Scanner.insideList opened lineWidth ⟨cs, Position.start⟩).toOption.map (List.map bare) :=
    fun position => Scanner.insideList_moved opened position opened lineWidth ⟨cs, Position.start⟩
  cases hstart : Scanner.insideList opened lineWidth ⟨cs, Position.start⟩ with
  | error e =>
      refine .inr fun position => ?_
      have hsame := hmoved position
      rw [hstart] at hsame
      cases hread : Scanner.insideList opened lineWidth ⟨cs, position⟩ with
      | error e' => rfl
      | ok behind => simp [hread, Except.toOption] at hsame
  | ok found =>
      refine .inl ⟨found.map bare, fun position => ?_⟩
      have hsame := hmoved position
      rw [hstart] at hsame
      cases hread : Scanner.insideList opened lineWidth ⟨cs, position⟩ with
      | error e => simp [hread, Except.toOption] at hsame
      | ok behind => exact ⟨behind, rfl, by simpa [hread, Except.toOption] using hsame⟩

/-- A list can be closed. -/
theorem insideList_close
    (opened : Position)
    (lineWidth : Nat)
    (position : Position) :
    Scanner.insideList opened lineWidth ⟨[')'], position⟩ =
      .ok [⟨.parenClose, ")", position⟩, ⟨.endOfInput, "", position.next ')'⟩] := by
  have hlist : attributeList opened ⟨[')'], position⟩ =
      .ok ([single .parenClose ')' position], ⟨[], position.next ')'⟩) := by
    rw [attributeList, if_neg (by decide), if_pos rfl]
  rw [Scanner.insideList, hlist]
  simp only
  rw [Scanner.tokens_nil]
  rfl

/-- In an open list, a literal is read as one token with its text, and reading goes on behind it. -/
theorem scan_asLiteral
    {front : String}
    {place : Position}
    (hopen : scan front = .error ⟨.unterminatedAttributes, place⟩) :
    ∃ opened lineWidth before, ∀ quote value back,
      scan (front ++ asLiteral quote value ++ back) =
        (Scanner.insideList opened lineWidth
          ⟨back.toList, Position.start.after (front ++ asLiteral quote value).toList⟩).map
            (before ++ literalBehind front value :: ·) := by
  obtain ⟨opened, lineWidth, before, hbefore⟩ := scan_append_of_open hopen
  refine ⟨opened, lineWidth, before, fun quote value back => ?_⟩
  rw [String.append_assoc, hbefore _ (startsLiteral_asLiteral quote value back),
    insideList_asLiteral, String.toList_append, Position.after_append]
  cases Scanner.insideList opened lineWidth _ <;> rfl

/-- `ReadsLiterals front before`: behind the text `front`, which has the tokens `before`, each text
can be written as a literal. -/
structure ReadsLiterals (front : String) (before : List Token) : Prop where
  /-- Whether the source is read to its end is up to what stands behind the literal alone. If it is,
  the literal is one token, and the tokens behind it do not depend on it but for their places. -/
  alike : ∀ back,
    (∃ rest, ∀ quote value, ∃ behind,
      scan (front ++ asLiteral quote value ++ back) =
        .ok (before ++ literalBehind front value :: behind) ∧ behind.map bare = rest) ∨
    ∀ quote value, (scan (front ++ asLiteral quote value ++ back)).isOk = false
  /-- With a parenthesis behind the literal it is. -/
  closed : ∀ quote value, ∃ closing ending,
    scan (front ++ asLiteral quote value ++ ")") =
      .ok (before ++ [literalBehind front value, ⟨.parenClose, ")", closing⟩,
        ⟨.endOfInput, "", ending⟩])

/-- A source that breaks off inside a list can be continued by a literal. -/
theorem exists_readsLiterals
    {front : String}
    {place : Position}
    (hopen : scan front = .error ⟨.unterminatedAttributes, place⟩) :
    ∃ before, ReadsLiterals front before := by
  obtain ⟨opened, lineWidth, before, hscan⟩ := scan_asLiteral hopen
  refine ⟨before, ⟨fun back => ?_, fun quote value => ?_⟩⟩
  · refine (insideList_alike opened lineWidth back.toList).imp ?_ fun hfail quote value => ?_
    · rintro ⟨rest, hrest⟩
      refine ⟨rest, fun quote value => ?_⟩
      obtain ⟨behind, hbehind, hbare⟩ :=
        hrest (Position.start.after (front ++ asLiteral quote value).toList)
      exact ⟨behind, by rw [hscan, hbehind]; rfl, hbare⟩
    · have hnone := hfail (Position.start.after (front ++ asLiteral quote value).toList)
      rw [hscan]
      cases hread : Scanner.insideList opened lineWidth
          ⟨back.toList, Position.start.after (front ++ asLiteral quote value).toList⟩ with
      | error e => rfl
      | ok behind =>
          rw [hread] at hnone
          cases hnone
  · have hclose := insideList_close opened lineWidth
      (Position.start.after (front ++ asLiteral quote value).toList)
    exact ⟨_, _, (hscan quote value ")").trans (congrArg (Except.map _) hclose)⟩

/-- Whatever follows, the literal is read as its value. -/
theorem ReadsLiterals.exists_behind
    {front : String}
    {before : List Token}
    (h : ReadsLiterals front before)
    {quote : Quote}
    {value back : String}
    (hok : (scan (front ++ asLiteral quote value ++ back)).isOk = true) :
    ∃ behind, scan (front ++ asLiteral quote value ++ back) =
      .ok (before ++ literalBehind front value :: behind) := by
  obtain ⟨rest, hrest⟩ | hfail := h.alike back
  · obtain ⟨behind, hscan, -⟩ := hrest quote value
    exact ⟨behind, hscan⟩
  · rw [hfail quote value] at hok
    cases hok

end Token

end BlockMarkup
