import BlockMarkup.Proofs.Node.Reading
import BlockMarkup.Proofs.Token.Zones

/-!
# What reading does not see

Two things about tokens have no part in what is read or in what is complained about. While an end of
input is ahead, the reader never comes to the end of its tokens, since no part of a document takes
an end of input; so neither the tokens behind it nor the place of the last token of all matter. And
the place of a line break is never looked at where line breaks may stand, which is among nodes.

`Reader.Twins` says that two token lists differ in these two things only, and `Reader.run_twins`
that they are read alike.
-/

namespace BlockMarkup

namespace Reader

open Token (Zone)

variable {zone behind : Zone} {tokens tokens' : List Token} {last last' : Position} {α β : Type}

/-- Whether two token lists are the same up to an end of input but for the places of line breaks
among nodes. Their first tokens stand in `zone`. -/
inductive Twins : Zone → List Token → List Token → Prop
  | endOfInput
      {t : Token}
      (ht : t.kind = .endOfInput)
      (zone : Zone)
      (after after' : List Token) :
      Twins zone (t :: after) (t :: after')
  | newline
      {t t' : Token}
      {rest rest' : List Token}
      (ht : t.kind = .newline)
      (ht' : t'.kind = .newline)
      (hrest : Twins .nodes rest rest') :
      Twins .nodes (t :: rest) (t' :: rest')
  | same
      {zone : Zone}
      {rest rest' : List Token}
      (t : Token)
      (hrest : Twins (zone.behind t) rest rest') :
      Twins zone (t :: rest) (t :: rest')

theorem Twins.kindAhead
    (h : Twins zone tokens tokens') :
    kindAhead tokens = kindAhead tokens' := by
  cases h with
  | endOfInput ht zone after after' => rfl
  | newline ht ht' hrest => exact ht.trans ht'.symm
  | same t hrest => rfl

theorem Twins.tail_of_parenClose
    (h : Twins .list tokens tokens')
    (hclose : Reader.kindAhead tokens = .parenClose) :
    Twins .nodes tokens.tail tokens'.tail := by
  cases h with
  | endOfInput ht zone after after' =>
      cases ht.symm.trans hclose
  | same t hrest =>
      have ht : t.kind = .parenClose := hclose
      rwa [Zone.behind, if_pos ht] at hrest

/-- Whatever stands before an end of input, it does not matter what stands behind. -/
theorem twins_append
    {eof : Token}
    (heof : eof.kind = .endOfInput)
    (zone : Zone)
    (before after after' : List Token) :
    Twins zone (before ++ eof :: after) (before ++ eof :: after') := by
  induction before generalizing zone with
  | nil => exact .endOfInput heof zone after after'
  | cons t before ih => exact .same t (ih (zone.behind t))

/-- Whether two readings fail with the same complaint, or read the same and stop before tokens that
cannot be told apart. -/
inductive Alike
    (zone : Zone) :
    Except TreeError (α × List Token) → Except TreeError (α × List Token) → Prop
  | error (e : TreeError) : Alike zone (.error e) (.error e)
  | ok
      (a : α)
      {rest rest' : List Token}
      (hrest : Twins zone rest rest') :
      Alike zone (.ok (a, rest)) (.ok (a, rest'))

/-- One reading after another goes alike on twins. -/
theorem Alike.bind
    {x y : Except TreeError (α × List Token)}
    (h : Alike zone x y)
    {f g : α × List Token → Except TreeError (β × List Token)}
    (hfg : ∀ a rest rest', Twins zone rest rest' → Alike behind (f (a, rest)) (g (a, rest'))) :
    Alike behind (x >>= f) (y >>= g) := by
  cases h with
  | error e => exact .error e
  | ok a hrest => exact hfg a _ _ hrest

/-- What is expected is found in both or missed in both, with the same words. -/
theorem expect_alike
    {kind : TokenKind}
    (hend : kind ≠ .endOfInput)
    (hclose : kind ≠ .parenClose)
    (expected : Expected)
    (h : Twins .list tokens tokens') :
    Alike .list (expect kind expected last tokens) (expect kind expected last' tokens') := by
  cases h with
  | endOfInput ht zone after after' =>
      simp only [expect, ht, hend.symm, if_false]
      exact .error _
  | same t hrest =>
      by_cases ht : t.kind = kind
      · simp only [expect, ht, if_true]
        rw [Zone.behind, if_neg (by rwa [ht])] at hrest
        exact .ok t hrest
      · simp only [expect, ht, if_false]
        exact .error _

/-- How reading goes on behind an attribute. -/
theorem attributes_of_ok
    {seen found : Dict Attribute}
    {tokens rest : List Token}
    {t : Token}
    (h : oneAttribute last seen tokens = .ok (found, t :: rest)) :
    attributes last seen tokens =
      if t.kind = .parenClose then .ok (found, rest)
      else if t.kind = .comma then
        if kindAhead rest = .parenClose then .ok (found, rest.tail)
        else attributes last found rest
      else .error (unexpected .attributeEnd last (t :: rest)) := by
  rw [attributes]
  split
  · next e herror =>
      rw [h] at herror
      cases herror
  · next found' rest' hfound =>
      rw [h] at hfound
      simp only [Except.ok.injEq, Prod.mk.injEq] at hfound
      obtain ⟨rfl, rfl⟩ := hfound
      rfl

theorem attributes_of_error
    {seen : Dict Attribute}
    {tokens : List Token}
    {e : TreeError}
    (h : oneAttribute last seen tokens = .error e) :
    attributes last seen tokens = .error e := by
  rw [attributes]
  split
  · next e' herror =>
      rw [h] at herror
      cases herror
      rfl
  · next hfound =>
      rw [h] at hfound
      cases hfound

theorem run_of_header_error
    {r : Reader}
    {t : Token}
    {tokens : List Token}
    {e : TreeError}
    (ht : t.kind = .identifier)
    (h : header last r.marker t tokens = .error e) :
    r.run last (t :: tokens) = .error e := by
  rw [run]
  simp only [ht]
  split
  · next e' herror =>
      rw [h] at herror
      cases herror
      rfl
  · next hfound =>
      rw [h] at hfound
      cases hfound

section

variable (last last' : Position)

theorem decorations_alike
    (header : Header)
    (h : Twins .nodes tokens tokens') :
    Alike .nodes (decorations last header tokens) (decorations last' header tokens') := by
  induction hlength : tokens.length using Nat.strong_induction_on
    generalizing tokens tokens' header with
  | _ length ih =>
    subst hlength
    by_cases hmark : kindAhead tokens = .dot ∨ kindAhead tokens = .hash
    · cases h with
      | endOfInput ht zone after after' => simp [kindAhead, ht] at hmark
      | newline ht ht' hrest => simp [kindAhead, ht] at hmark
      | same mark hrest =>
          have hmark' : mark.kind = .dot ∨ mark.kind = .hash := hmark
          rw [Zone.behind, if_pos hmark'] at hrest
          cases hrest with
          | endOfInput ht zone after after' =>
              simp only [decorations, ht, reduceCtorEq, if_false]
              rcases hmark' with hdot | hhash
              · rw [if_pos hdot, if_pos hdot]
                exact .error _
              · simp only [hhash, reduceCtorEq, if_false, if_true]
                exact .error _
          | same name hmore =>
              simp only [decorations]
              split
              · split
                · exact ih _ (by simp only [List.length_cons]; omega) _ hmore rfl
                · exact .error _
              · next hdot =>
                  rw [if_pos (hmark'.resolve_left hdot), if_pos (hmark'.resolve_left hdot)]
                  split
                  · split
                    · exact .error _
                    · exact ih _ (by simp only [List.length_cons]; omega) _ hmore rfl
                  · exact .error _
    · have hstop : ∀ (place : Position) (more : List Token),
          kindAhead more = kindAhead tokens →
            decorations place header more = .ok (header, more) := by
        intro place more hmore
        rw [not_or, ← hmore] at hmark
        exact decorations_stop header hmark.1 hmark.2
      rw [hstop last tokens rfl, hstop last' tokens' h.kindAhead.symm]
      exact .ok header h

theorem oneAttribute_alike
    (seen : Dict Attribute)
    (h : Twins .list tokens tokens') :
    Alike .list (oneAttribute last seen tokens) (oneAttribute last' seen tokens') := by
  refine (expect_alike (by decide) (by decide) _ h).bind fun name _ _ hname => ?_
  refine (expect_alike (by decide) (by decide) _ hname).bind fun colon _ _ hcolon => ?_
  refine (expect_alike (by decide) (by decide) _ hcolon).bind fun value _ _ hvalue => ?_
  dsimp only
  split
  · exact .error _
  · split
    · exact .error _
    · exact .ok _ hvalue

theorem attributes_alike
    (seen : Dict Attribute)
    (h : Twins .list tokens tokens') :
    Alike .nodes (attributes last seen tokens) (attributes last' seen tokens') := by
  induction hlength : tokens.length using Nat.strong_induction_on
    generalizing tokens tokens' seen with
  | _ length ih =>
    subst hlength
    have hone := oneAttribute_alike last last' seen h
    generalize hx : oneAttribute last seen tokens = x at hone
    generalize hy : oneAttribute last' seen tokens' = y at hone
    cases hone with
    | error e =>
        rw [attributes_of_error hx, attributes_of_error hy]
        exact .error e
    | ok found hrest =>
        have hshorter := oneAttribute_length_lt hx
        cases hrest with
        | endOfInput ht zone after after' =>
            rw [attributes_of_ok hx, attributes_of_ok hy]
            simp only [ht, reduceCtorEq, if_false]
            exact .error _
        | same t hmore =>
            rw [attributes_of_ok hx, attributes_of_ok hy]
            rw [Zone.behind] at hmore
            split
            · next hclose =>
                rw [if_pos hclose] at hmore
                exact .ok found hmore
            · next hclose =>
                rw [if_neg hclose] at hmore
                rw [← hmore.kindAhead]
                split
                · split
                  · next hahead => exact .ok found (hmore.tail_of_parenClose hahead)
                  · exact ih _ (by simp only [List.length_cons] at hshorter; omega) found hmore rfl
                · exact .error _

/-- A header is read alike. -/
theorem header_alike
    (indent : Option Nat)
    (tag : Token)
    (h : Twins .nodes tokens tokens') :
    Alike .nodes (header last indent tag tokens) (header last' indent tag tokens') := by
  have hdecorations := decorations_alike last last'
    ⟨tag.text, none, [], Dict.empty, tag.position, indent⟩ h
  unfold header
  generalize decorations last _ tokens = x at hdecorations ⊢
  generalize decorations last' _ tokens' = y at hdecorations ⊢
  cases hdecorations with
  | error e =>
      exact .error e
  | ok found hrest =>
      cases hrest with
      | endOfInput ht zone after after' =>
          simp only [ht, reduceCtorEq, if_false]
          exact .ok found (.endOfInput ht _ after after')
      | newline ht ht' hmore =>
          simp only [ht, ht', reduceCtorEq, if_false]
          exact .ok found (.newline ht ht' hmore)
      | same t hmore =>
          by_cases hopen : t.kind = .parenOpen
          · have hlist : Zone.behind .nodes t = .list := by simp [Zone.behind, hopen]
            rw [hlist] at hmore
            simp only [hopen, if_true, ← hmore.kindAhead]
            split
            · next hahead => exact .ok found (hmore.tail_of_parenClose hahead)
            · have hattributes := attributes_alike last last' Dict.empty hmore
              generalize attributes last _ _ = x at hattributes ⊢
              generalize attributes last' _ _ = y at hattributes ⊢
              cases hattributes with
              | error e => exact .error e
              | ok read hbehind => exact .ok _ hbehind
          · simp only [hopen, if_false]
            exact .ok found (.same t hmore)

/-- Behind a header reading goes on alike if shorter token lists are read alike. -/
theorem run_header_twins
    {r : Reader}
    {t : Token}
    (ht : t.kind = .identifier)
    (h : Twins .nodes tokens tokens')
    (hshort : ∀ (s : Reader) (more more' : List Token), more.length ≤ tokens.length →
      Twins .nodes more more' → s.run last more = s.run last' more') :
    r.run last (t :: tokens) = r.run last' (t :: tokens') := by
  have hheader := header_alike last last' r.marker t h
  generalize hx : header last r.marker t tokens = x at hheader
  generalize hy : header last' r.marker t tokens' = y at hheader
  cases hheader with
  | error e =>
      rw [run_of_header_error ht hx, run_of_header_error ht hy]
  | ok read hmore =>
      have hlength := header_length_le hx
      have hread := hshort (r.add (.element read [])) _ _ hlength hmore
      cases hmore with
      | endOfInput hnext zone after after' =>
          rw [run_identifier ht hx, run_identifier ht hy]
          simpa only [hnext, reduceCtorEq, if_false] using hread
      | newline hnext hnext' hinside =>
          rw [run_identifier ht hx, run_identifier ht hy]
          simpa only [hnext, hnext', reduceCtorEq, if_false] using hread
      | same next hinside =>
          rw [run_identifier ht hx, run_identifier ht hy]
          split
          · next hbrace =>
              have hnodes : Zone.behind .nodes next = .nodes := by simp [Zone.behind, hbrace]
              rw [hnodes] at hinside
              split
              · rfl
              · exact hshort _ _ _ (Nat.le_of_succ_le hlength) hinside
          · exact hread

/-- Tokens that cannot be told apart are read alike. -/
theorem run_twins
    (r : Reader)
    (h : Twins .nodes tokens tokens') :
    r.run last tokens = r.run last' tokens' := by
  induction hlength : tokens.length using Nat.strong_induction_on
    generalizing tokens tokens' r with
  | _ length ih =>
    subst hlength
    cases h with
    | endOfInput ht zone after after' =>
        rw [run, run]
        simp only [ht]
    | newline ht ht' hrest =>
        rw [run, run]
        simp only [ht, ht']
        exact ih _ (by simp) _ hrest rfl
    | same t hrest =>
        by_cases hmark : t.kind ∈ [.dot, .hash, .parenOpen]
        · -- a mark of a header without the header is complained about at once
          simp only [List.mem_cons, List.not_mem_nil, or_false] at hmark
          rw [run, run]
          rcases hmark with hkind | hkind | hkind <;> simp only [hkind, unexpected]
        · have hnodes : Zone.behind .nodes t = .nodes := by
            simp_all [Zone.behind]
          rw [hnodes] at hrest
          by_cases ht : t.kind = .identifier
          · exact run_header_twins last last' ht hrest fun s more more' hmore htwins =>
              ih _ (Nat.lt_succ_of_le hmore) s htwins rfl
          · have hnext : ∀ s : Reader, s.run last _ = s.run last' _ := fun s =>
              ih _ (by simp) s hrest rfl
            rw [run, run]
            cases hkind : t.kind <;> simp_all [unexpected]

/-- Neither the place of the last token nor the tokens behind an end of input matter. -/
theorem run_append
    {eof : Token}
    (heof : eof.kind = .endOfInput)
    (after after' : List Token)
    (last last' : Position)
    (r : Reader)
    (before : List Token) :
    r.run last (before ++ eof :: after) = r.run last' (before ++ eof :: after') :=
  run_twins last last' r (twins_append heof .nodes before after after')

end

end Reader

end BlockMarkup
