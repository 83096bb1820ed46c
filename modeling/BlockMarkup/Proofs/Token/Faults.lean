import BlockMarkup.Proofs.Token.LineEndings
import BlockMarkup.Proofs.Token.Orderly

/-!
# Where the scanner finds fault

A source that cannot be cut into tokens has a header whose attribute list is at fault: it does not
end, a string in it does not end, or it has a character that nothing there begins with. The place of
the fault is that of the parenthesis, of the quote or of the character.
-/

namespace BlockMarkup

/-- What a problem tells about the character that it is blamed on. -/
def TokenProblem.Blames : TokenProblem → Char → Prop
  | unterminatedString, c => c = '"' ∨ c = '\''
  | unterminatedAttributes, c => c = '('
  | illegalCharacter found, c => c = found

namespace Token

variable {source : List Char} {e : TokenError}

theorem error_of_map
    {α β : Type}
    {read : Except TokenError α}
    {f : α → β}
    (h : read.map f = .error e) :
    read = .error e := by
  cases read with
  | error e' => simpa [Except.map] using h
  | ok a => cases h

/-- A fault in a list is at the character that it blames. -/
theorem attributeList_blames
    {opened : Position}
    {c : Cursor}
    (hread : attributeList opened c = .error e)
    (hopened : Text.HasAt source opened fun first _ => first = '(')
    (h : c.In source) :
    Text.HasAt source e.position fun first _ => e.problem.Blames first := by
  fun_induction attributeList opened c with
  | case1 =>
      cases hread
      exact hopened
  | case2 =>
      rename_i ih
      exact ih hread h.next
  | case3 =>
      cases hread
  | case4 | case5 =>
      rename_i ih
      exact ih (error_of_map hread) h.next
  | case6 first rest position _ _ _ _ hquote =>
      cases hread
      exact h.hasAt (by simpa [TokenProblem.Blames] using hquote)
  | case7 first rest position _ _ _ _ hquote value stop hliteral ih =>
      exact ih (error_of_map hread) (literal_sound hliteral h.next)
  | case8 first rest position _ _ _ _ _ _ name ih =>
      have hsplit : name ++ rest.dropWhile isAttributeChar = first :: rest := by
        simp [name, List.takeWhile_append_dropWhile]
      rw [← hsplit] at h
      exact ih (error_of_map hread) h.advance
  | case9 first rest position =>
      cases hread
      exact h.hasAt rfl

theorem header_blames
    {c : Cursor}
    (hread : header c = .error e)
    (h : c.In source) :
    Text.HasAt source e.position fun first _ => e.problem.Blames first := by
  have hnames := (decorations_sound (h.span isIdentifierChar).1).1
  unfold header at hread
  simp only at hread
  split at hread
  · next rest opened hopen =>
      rw [hopen] at hnames
      exact attributeList_blames (error_of_map hread) (hnames.hasAt rfl) hnames.next
  · cases hread

end Token

namespace Scanner

open Token

variable {source : List Char} {e : TokenError}

/-- A whole run: a fault is at the character that it blames. -/
theorem tokens_blames
    {s : Scanner}
    (htokens : s.tokens = .error e)
    (h : s.cursor.In source) :
    Text.HasAt source e.position fun first _ => e.problem.Blames first := by
  fun_induction Scanner.tokens s with
  | case1 s hrest =>
      cases htokens
  | case2 s c rest hrest e' hstep =>
      cases htokens
      refine header_blames (header_of_step_error hstep).2.2.2 ?_
      rw [← hrest]
      exact h
  | case3 s c rest hrest read next hstep ih =>
      exact ih (error_of_map htokens) (step_sound hrest hstep h).1

end Scanner

/-- A source that cannot be cut into tokens has the character at the place of the fault that the
fault tells of. -/
theorem Token.scan_blames
    {source : String}
    {e : TokenError}
    (hscan : Token.scan source = .error e) :
    Text.HasAt source.toList e.position fun first _ => e.problem.Blames first := by
  have hstart : Token.Cursor.In ⟨source.toList, Position.start⟩ source.toList := ⟨[], rfl, rfl⟩
  exact Scanner.tokens_blames (Token.error_of_map hscan) (Scanner.beginLine_sound hstart 0).1

end BlockMarkup
