import BlockMarkup.Proofs.Node.Sound
import BlockMarkup.Proofs.Node.Unseen
import BlockMarkup.Proofs.Token.Orderly

/-!
# What can be wrong with the tokens of a source

The reader is made for any list of tokens and has a complaint for every token that it does not
expect. The tokens of a source are orderly, so only some of these complaints are ever made: headers
are whole, and what is wrong is wrong with braces, with ids and with the insides of attribute lists
(`Reader.Complaint`). The one complaint that goes as far as the end of an attribute list blames the
parenthesis that closes it.

Every function of the reader is run on the tokens that the scanner has made for it. It stops where
these tokens end, or it makes one of the complaints (`Reader.Outcome`).
-/

namespace BlockMarkup

namespace Token

/-- The tokens up to the parenthesis that closes a list, and that parenthesis. -/
theorem Closes.exists_append
    {tokens : List Token}
    (h : Closes tokens) :
    ∃ inside closing, tokens = inside ++ [closing] ∧ closing.kind = .parenClose ∧
      ∀ t ∈ inside, t.kind ∈ listKinds := by
  induction h with
  | closing ht =>
      exact ⟨[], _, rfl, ht, by simp⟩
  | item ht _ ih =>
      obtain ⟨inside, closing, rfl, hclosing, hinside⟩ := ih
      exact ⟨_ :: inside, closing, rfl, hclosing, List.forall_mem_cons.2 ⟨ht, hinside⟩⟩

namespace Orderly

variable {t : Token} {rest : List Token}

theorem plain_of_ne
    (h : Orderly (t :: rest))
    (hend : t.kind ≠ .endOfInput)
    (htag : t.kind ≠ .identifier) :
    t.kind ∈ plainKinds ∧ Orderly rest := by
  cases h with
  | endOfInput ht => exact absurd ht hend
  | plain ht hrest => exact ⟨ht, hrest⟩
  | header ht => exact absurd ht htag

theorem tail
    (h : Orderly (t :: rest))
    (ht : t.kind ∈ plainKinds) :
    Orderly rest := by
  refine (h.plain_of_ne ?_ ?_).2
  · intro hkind
    simp [plainKinds, hkind] at ht
  · intro hkind
    simp [plainKinds, hkind] at ht

theorem exists_header
    (h : Orderly (t :: rest))
    (ht : t.kind = .identifier) :
    ∃ marks list after, rest = marks ++ (list ++ after) ∧ Marks marks ∧ Parens list ∧
      Orderly after := by
  cases h with
  | endOfInput hend => cases ht.symm.trans hend
  | plain hplain => simp [plainKinds, ht] at hplain
  | header _ hmarks hlist hrest => exact ⟨_, _, _, rfl, hmarks, hlist, hrest⟩

/-- Behind a whole header, none of its tokens goes on. -/
theorem kindAhead_not_mem
    (h : Orderly rest) :
    Reader.kindAhead rest ∉ [.dot, .hash, .parenOpen] := by
  cases h with
  | endOfInput ht => simp [Reader.kindAhead, ht]
  | plain ht =>
      intro hmem
      simp only [Reader.kindAhead, List.mem_cons, List.not_mem_nil, or_false] at hmem
      rcases hmem with hkind | hkind | hkind <;> simp [plainKinds, hkind] at ht
  | header htag => simp [Reader.kindAhead, htag]

/-- Behind the marks of a header comes its list or what follows the header. -/
theorem kindAhead_list_not_mem
    {list : List Token}
    (hlist : Parens list)
    (h : Orderly rest) :
    Reader.kindAhead (list ++ rest) ∉ [.dot, .hash] := by
  cases hlist with
  | none =>
      have hahead := h.kindAhead_not_mem
      simp only [List.mem_cons, not_or] at hahead
      simp [hahead]
  | list hopening => simp [Reader.kindAhead, hopening]

end Orderly

end Token

/-- Only a style can be at fault. -/
theorem Attribute.read_of_derive_error
    {name value declaration : String}
    (hderive : derive name value = .error declaration) :
    Style.read value = .error declaration := by
  unfold derive at hderive
  split_ifs at hderive
  cases hread : Style.read value with
  | error e => simpa [hread, Except.map] using hderive
  | ok style => simp [hread, Except.map] at hderive

namespace Reader

open Token (Marks Closes Parens Orderly listKinds plainKinds)

/-- Whether `inside` stands between the parentheses of an attribute list in `tokens`, the second of
which is `closing`. -/
def HasList
    (tokens inside : List Token)
    (closing : Token) : Prop :=
  ∃ before opening after, tokens = before ++ opening :: (inside ++ closing :: after) ∧
    opening.kind = .parenOpen ∧ closing.kind = .parenClose ∧ ∀ t ∈ inside, t.kind ∈ listKinds

theorem exists_hasList
    {tokens list rest : List Token}
    {opening : Token}
    (hopening : opening.kind = .parenOpen)
    (hlist : Closes list)
    (hsuffix : opening :: list ++ rest <:+ tokens) :
    ∃ inside closing, list = inside ++ [closing] ∧ HasList tokens inside closing := by
  obtain ⟨inside, closing, rfl, hclosing, hinside⟩ := hlist.exists_append
  obtain ⟨before, hbefore⟩ := hsuffix
  exact ⟨inside, closing, rfl, before, opening, rest, by simp [← hbefore], hopening, hclosing,
    hinside⟩

/-- The complaints about orderly tokens. -/
inductive Complaint (tokens : List Token) : TreeError → Prop
  | unmatchedBrace
      {t : Token}
      (ht : t ∈ tokens)
      (hkind : t.kind = .braceClose) :
      Complaint tokens ⟨.unmatchedBrace, t.position⟩
  | unclosedBrace
      {t : Token}
      (ht : t ∈ tokens)
      (hkind : t.kind = .braceOpen) :
      Complaint tokens ⟨.unclosedBrace, t.position⟩
  | tooDeep
      {t : Token}
      (ht : t ∈ tokens)
      (hkind : t.kind = .braceOpen) :
      Complaint tokens ⟨.tooDeep, t.position⟩
  | headerBeforeBlock
      {t : Token}
      (ht : t ∈ tokens)
      (hkind : t.kind = .braceOpen) :
      Complaint tokens ⟨.unexpected .headerBeforeBlock t.describe, t.position⟩
  | duplicateId
      {mark name : Token}
      (hmark : mark.kind = .hash)
      (hname : name.kind = .identifier)
      (hpair : [mark, name] <:+: tokens)
      (first : String) :
      Complaint tokens ⟨.duplicateId name.text first, mark.position⟩
  | duplicateAttribute
      {inside : List Token} {closing name : Token}
      (hlist : HasList tokens inside closing)
      (hmem : name ∈ inside)
      (hname : name.kind = .identifier) :
      Complaint tokens ⟨.duplicateAttribute name.text, name.position⟩
  | malformedStyle
      {inside : List Token} {closing value : Token} {declaration : String}
      (hlist : HasList tokens inside closing)
      (hmem : value ∈ inside)
      (hvalue : value.kind = .stringLiteral)
      (hread : Style.read value.text = .error declaration) :
      Complaint tokens ⟨.malformedStyle declaration, value.position⟩
  | inside
      {inside : List Token} {closing t : Token} {expected : Expected}
      (hlist : HasList tokens inside closing)
      (hmem : t ∈ inside)
      (hexpected : expected ∈
        [.attributeName, .attributeColon, .attributeValue, .attributeEnd]) :
      Complaint tokens ⟨.unexpected expected t.describe, t.position⟩
  | closing
      {inside : List Token} {closing : Token} {expected : Expected}
      (hlist : HasList tokens inside closing)
      (hexpected : expected ∈ [.attributeColon, .attributeValue]) :
      Complaint tokens ⟨.unexpected expected closing.describe, closing.position⟩

/-- How a reading can come out: what is left satisfies `stops`, or there is a complaint. -/
inductive Outcome
    {α : Type}
    (tokens : List Token)
    (stops : α → List Token → Prop) :
    Except TreeError (α × List Token) → Prop
  | ok
      {a : α} {rest : List Token}
      (h : stops a rest) :
      Outcome tokens stops (.ok (a, rest))
  | error
      {e : TreeError}
      (h : Complaint tokens e) :
      Outcome tokens stops (.error e)

variable {tokens : List Token} {α β : Type}

/-- One reading after another: either the first complains, or the second goes on where it
stopped. -/
theorem Outcome.bind
    {stops : α → List Token → Prop}
    {stops' : β → List Token → Prop}
    {x : Except TreeError (α × List Token)}
    (h : Outcome tokens stops x)
    {f : α × List Token → Except TreeError (β × List Token)}
    (hf : ∀ a rest, stops a rest → Outcome tokens stops' (f (a, rest))) :
    Outcome tokens stops' (x >>= f) := by
  cases h with
  | ok h => exact hf _ _ h
  | error h => exact .error h

theorem Outcome.stops_of_ok
    {stops : α → List Token → Prop}
    {x : Except TreeError (α × List Token)}
    (h : Outcome tokens stops x)
    {a : α}
    {rest : List Token}
    (hx : x = .ok (a, rest)) :
    stops a rest := by
  cases h with
  | ok h =>
      cases hx
      exact h
  | error _ => cases hx

theorem Outcome.complaint_of_error
    {stops : α → List Token → Prop}
    {x : Except TreeError (α × List Token)}
    (h : Outcome tokens stops x)
    {e : TreeError}
    (hx : x = .error e) :
    Complaint tokens e := by
  cases h with
  | ok _ => cases hx
  | error h =>
      cases hx
      exact h

variable (last : Position)

section List

variable {inside todo after : List Token} {closing : Token}
  (hlist : HasList tokens inside closing)

include hlist

theorem HasList.kind_closing : closing.kind = .parenClose := by
  obtain ⟨_, _, _, -, -, hclosing, -⟩ := hlist
  exact hclosing

theorem HasList.kind_mem
    {t : Token}
    (ht : t ∈ inside) :
    t.kind ∈ listKinds := by
  obtain ⟨_, _, _, -, -, -, hinside⟩ := hlist
  exact hinside t ht

theorem HasList.kind_ne
    {t : Token}
    (ht : t ∈ inside)
    {kind : TokenKind}
    (hkind : kind ∉ listKinds) :
    t.kind ≠ kind :=
  ne_of_mem_of_not_mem (hlist.kind_mem ht) hkind

theorem HasList.mem
    {t : Token}
    (ht : t ∈ inside) :
    t ∈ tokens := by
  obtain ⟨_, _, _, rfl, -⟩ := hlist
  simp [ht]

theorem HasList.closing_mem : closing ∈ tokens := by
  obtain ⟨_, _, _, rfl, -⟩ := hlist
  simp

/-- The rest of a list begins with its closing parenthesis only if nothing is left in it. -/
theorem kindAhead_eq_parenClose_iff
    (htodo : todo <:+ inside) :
    kindAhead (todo ++ closing :: after) = .parenClose ↔ todo = [] := by
  cases todo with
  | nil =>
      simp [kindAhead, hlist.kind_closing]
  | cons t more =>
      have hkind : t.kind ≠ .parenClose :=
        hlist.kind_ne (htodo.subset List.mem_cons_self) (by decide)
      simp [kindAhead, hkind]

/-- Inside a list, what is expected is found, or there is a complaint about what stands in its
place. -/
theorem expect_outcome
    {kind : TokenKind}
    (hkind : kind ≠ .parenClose)
    {expected : Expected}
    (hexpected : expected ∈ [.attributeName, .attributeColon, .attributeValue, .attributeEnd])
    (htodo : todo <:+ inside)
    (hnil : todo = [] → expected ∈ [.attributeColon, .attributeValue]) :
    Outcome tokens
      (fun t rest => t.kind = kind ∧ ∃ more, rest = more ++ closing :: after ∧ t :: more <:+ inside)
      (expect kind expected last (todo ++ closing :: after)) := by
  cases todo with
  | nil =>
      have hclosing : closing.kind ≠ kind := by
        rw [hlist.kind_closing]
        exact hkind.symm
      rw [List.nil_append, expect, if_neg hclosing]
      exact .error (.closing hlist (hnil rfl))
  | cons t more =>
      rw [List.cons_append, expect]
      split
      · next ht => exact .ok ⟨ht, more, rfl, htodo⟩
      · exact .error (.inside hlist (htodo.subset List.mem_cons_self) hexpected)

theorem oneAttribute_outcome
    (seen : Dict Attribute)
    (htodo : todo <:+ inside)
    (hne : todo ≠ []) :
    Outcome tokens (fun _ rest => ∃ more, rest = more ++ closing :: after ∧ more <:+ inside)
      (oneAttribute last seen (todo ++ closing :: after)) := by
  refine (expect_outcome last hlist (by simp) (by simp) htodo fun h => absurd h hne).bind ?_
  rintro name _ ⟨hname, behindName, rfl, hsuffix₁⟩
  refine (expect_outcome last hlist (by simp) (by simp) ((List.suffix_cons _ _).trans hsuffix₁)
    (by simp)).bind ?_
  rintro colon _ ⟨-, behindColon, rfl, hsuffix₂⟩
  refine (expect_outcome last hlist (by simp) (by simp) ((List.suffix_cons _ _).trans hsuffix₂)
    (by simp)).bind ?_
  rintro value _ ⟨hvalue, behindValue, rfl, hsuffix₃⟩
  dsimp only
  split
  · exact .error (.duplicateAttribute hlist (hsuffix₁.subset List.mem_cons_self) hname)
  · split
    · next declaration hderive =>
        exact .error (.malformedStyle hlist (hsuffix₃.subset List.mem_cons_self) hvalue
          (Attribute.read_of_derive_error hderive))
    · exact .ok ⟨behindValue, rfl, (List.suffix_cons _ _).trans hsuffix₃⟩

/-- A list is read to its end, or there is a complaint. -/
theorem attributes_outcome
    (seen : Dict Attribute)
    (htodo : todo <:+ inside)
    (hne : todo ≠ []) :
    Outcome tokens (fun _ rest => rest = after)
      (attributes last seen (todo ++ closing :: after)) := by
  -- on the length of what is left of the list, since an attribute takes several tokens of it
  induction hlength : todo.length using Nat.strong_induction_on generalizing todo seen with
  | _ length ih =>
    subst hlength
    have hone : Outcome tokens _ (oneAttribute last seen (todo ++ closing :: after)) :=
      oneAttribute_outcome last hlist seen htodo hne
    generalize hread : oneAttribute last seen (todo ++ closing :: after) = read at hone
    cases hone with
    | error hcomplaint =>
        rw [attributes_of_error hread]
        exact .error hcomplaint
    | @ok found rest hrest =>
        obtain ⟨more, rfl, hmore⟩ := hrest
        have hshorter := oneAttribute_length_lt hread
        cases more with
        | nil =>
            rw [attributes_of_ok hread, if_pos hlist.kind_closing]
            exact .ok rfl
        | cons t more =>
            have hclose : t.kind ≠ .parenClose :=
              hlist.kind_ne (hmore.subset List.mem_cons_self) (by decide)
            have hsuffix := (List.suffix_cons _ _).trans hmore
            rw [attributes_of_ok hread, if_neg hclose]
            split
            · split
              · next hahead =>
                  have hnil := (kindAhead_eq_parenClose_iff hlist hsuffix).1 hahead
                  exact .ok (by rw [hnil]; rfl)
              · next hahead =>
                  refine ih more.length ?_ found hsuffix
                    (mt (kindAhead_eq_parenClose_iff hlist hsuffix).2 hahead) rfl
                  simp only [List.length_append, List.length_cons] at hshorter
                  omega
            · exact .error (.inside hlist (hmore.subset List.mem_cons_self) (by simp))

end List

theorem decorations_outcome
    (header : Header)
    {marks rest : List Token}
    (hmarks : Marks marks)
    (hsuffix : marks ++ rest <:+ tokens)
    (hrest : kindAhead rest ∉ [.dot, .hash]) :
    Outcome tokens (fun _ stop => stop = rest) (decorations last header (marks ++ rest)) := by
  induction hmarks generalizing header with
  | nil =>
      simp only [List.mem_cons, List.not_mem_nil, or_false, not_or] at hrest
      rw [List.nil_append, decorations_stop header hrest.1 hrest.2]
      exact .ok rfl
  | @cons mark name more hmark hname _ ih =>
      have hmore : more ++ rest <:+ tokens :=
        ((List.suffix_cons _ _).trans (List.suffix_cons _ _)).trans hsuffix
      have hpair : [mark, name] <:+: tokens := by
        have hfront : [mark, name] <+: mark :: name :: (more ++ rest) := ⟨more ++ rest, rfl⟩
        exact hfront.isInfix.trans hsuffix.isInfix
      simp only [List.cons_append, decorations, hname, if_true]
      rcases hmark with hdot | hhash
      · rw [if_pos hdot]
        exact ih _ hmore
      · rw [if_neg (by simp [hhash]), if_pos hhash]
        split
        · exact .error (.duplicateId hhash hname hpair _)
        · exact ih _ hmore

/-- A header is read to its end, or there is a complaint. -/
theorem header_outcome
    (indent : Option Nat)
    {tag : Token}
    {tail : List Token}
    (horderly : Orderly (tag :: tail))
    (htag : tag.kind = .identifier)
    (hsuffix : tag :: tail <:+ tokens) :
    Outcome tokens (fun _ rest => Orderly rest ∧ rest <:+ tokens)
      (Reader.header last indent tag tail) := by
  obtain ⟨marks, list, rest, rfl, hmarks, hlist, hrest⟩ := horderly.exists_header htag
  replace hsuffix := (List.suffix_cons _ _).trans hsuffix
  have hbehindMarks := (List.suffix_append marks _).trans hsuffix
  have hstops : Orderly rest ∧ rest <:+ tokens :=
    ⟨hrest, (List.suffix_append list _).trans hbehindMarks⟩
  have hdecorations :=
    decorations_outcome last ⟨tag.text, none, [], Dict.empty, tag.position, indent⟩ hmarks hsuffix
      (hrest.kindAhead_list_not_mem hlist)
  unfold Reader.header
  generalize decorations last _ (marks ++ (list ++ rest)) = read at hdecorations ⊢
  cases hdecorations with
  | error hcomplaint => exact .error hcomplaint
  | @ok found stop hstop =>
      subst hstop
      cases hlist with
      | none =>
          cases rest with
          | nil => exact .ok hstops
          | cons t rest =>
              have hparen : t.kind ≠ .parenOpen :=
                fun h => hrest.kindAhead_not_mem (by simp [kindAhead, h])
              simp only [List.nil_append, hparen, if_false]
              exact .ok hstops
      | @list opening more hopening hcloses =>
          obtain ⟨inside, closing, rfl, hhas⟩ := exists_hasList hopening hcloses hbehindMarks
          simp only [List.cons_append, List.append_assoc, List.nil_append, hopening, if_true]
          split
          · next hclose =>
              have hnil := (kindAhead_eq_parenClose_iff hhas List.suffix_rfl).1 hclose
              subst hnil
              exact .ok hstops
          · next hclose =>
              have hne := mt (kindAhead_eq_parenClose_iff hhas List.suffix_rfl).2 hclose
              have hattributes : Outcome tokens _
                  (attributes last Dict.empty (inside ++ closing :: rest)) :=
                attributes_outcome last hhas Dict.empty List.suffix_rfl hne
              generalize attributes last _ _ = read at hattributes ⊢
              cases hattributes with
              | error hcomplaint => exact .error hcomplaint
              | ok hstop => exact .ok (hstop ▸ hstops)

/-- The brace of every open block is one of the tokens. -/
def BlocksIn
    (tokens : List Token)
    (r : Reader) : Prop :=
  ∀ block ∈ r.blocks, ∃ t ∈ tokens, t.kind = .braceOpen ∧ t.position = block.brace

/-- What is complained about at the end is a brace that was opened. -/
theorem BlocksIn.finish
    {r : Reader}
    (h : r.BlocksIn tokens)
    {e : TreeError}
    (hfinish : r.finish = .error e) :
    Complaint tokens e := by
  unfold Reader.finish at hfinish
  split at hfinish
  · cases hfinish
  · next block outer hblocks =>
      cases hfinish
      obtain ⟨t, ht, hkind, hposition⟩ := h block (by simp [hblocks])
      rw [← hposition]
      exact .unclosedBrace ht hkind

/-- Reading orderly tokens fails with one of the complaints only. -/
theorem run_complaint
    {r : Reader}
    {more : List Token}
    (horderly : Orderly more)
    (hsuffix : more <:+ tokens)
    (hblocks : r.BlocksIn tokens)
    {e : TreeError}
    (hrun : r.run last more = .error e) :
    Complaint tokens e := by
  have hbehind : ∀ {t : Token} {tail : List Token}, t :: tail <:+ tokens → tail <:+ tokens :=
    fun h => (List.suffix_cons _ _).trans h
  have hfirst : ∀ {t : Token} {tail : List Token}, t :: tail <:+ tokens → t ∈ tokens :=
    fun h => h.subset List.mem_cons_self
  fun_induction Reader.run last r more with
  | case1 r =>
      exact hblocks.finish hrun
  | case2 r t tail hkind =>
      exact hblocks.finish hrun
  | case3 r t tail hkind ih | case4 r t tail hkind ih | case5 r t tail hkind ih
  | case8 r t tail hkind ih =>
      exact ih (horderly.tail (by simp [plainKinds, hkind])) (hbehind hsuffix) hblocks hrun
  | case6 r t tail hkind hnone =>
      cases hrun
      exact .unmatchedBrace (hfirst hsuffix) hkind
  | case7 r t tail hkind block outer hopen element ih =>
      have helement : element = .element block.header r.nodes.reverse := by simp [element]
      rw [helement] at ih
      rw [BlocksIn, hopen, List.forall_mem_cons] at hblocks
      exact ih (horderly.tail (by simp [plainKinds, hkind])) (hbehind hsuffix) hblocks.2 hrun
  | case9 r t tail hkind e' hheader =>
      cases hrun
      exact (header_outcome last _ horderly hkind hsuffix).complaint_of_error hheader
  | case10 r t tail hkind header hheader _ ih =>
      obtain ⟨hrest, hafter⟩ :=
        (header_outcome last _ horderly hkind hsuffix).stops_of_ok hheader
      exact ih hrest hafter hblocks hrun
  | case11 r t tail hkind header brace inside hheader hbrace hdepth =>
      cases hrun
      obtain ⟨-, hafter⟩ := (header_outcome last _ horderly hkind hsuffix).stops_of_ok hheader
      exact .tooDeep (hfirst hafter) hbrace
  | case12 r t tail hkind header brace inside hheader hbrace hdepth _ ih =>
      obtain ⟨hrest, hafter⟩ :=
        (header_outcome last _ horderly hkind hsuffix).stops_of_ok hheader
      refine ih (hrest.tail (by simp [plainKinds, hbrace])) (hbehind hafter) ?_ hrun
      exact List.forall_mem_cons.2 ⟨⟨brace, hfirst hafter, hbrace, rfl⟩, hblocks⟩
  | case13 r t tail hkind header brace inside hheader hbrace _ ih =>
      obtain ⟨hrest, hafter⟩ :=
        (header_outcome last _ horderly hkind hsuffix).stops_of_ok hheader
      exact ih hrest hafter hblocks hrun
  | case14 r t tail hkind =>
      cases hrun
      exact .headerBeforeBlock (hfirst hsuffix) hkind
  | case15 r t tail =>
      -- no other token stands outside of headers
      have hplain := (horderly.plain_of_ne (by assumption) (by assumption)).1
      simp only [plainKinds, List.mem_cons, List.not_mem_nil, or_false] at hplain
      tauto

namespace Complaint

variable {e : TreeError}

/-- A complaint blames a token, and not the end of input. -/
theorem exists_blamed
    (h : Complaint tokens e) :
    ∃ t ∈ tokens, t.kind ≠ .endOfInput ∧ e.position = t.position ∧
      ∀ expected found, e.problem = .unexpected expected found → found = t.describe := by
  cases h with
  | unmatchedBrace ht hkind | unclosedBrace ht hkind | tooDeep ht hkind
  | headerBeforeBlock ht hkind =>
      exact ⟨_, ht, by simp [hkind], rfl, by simp⟩
  | duplicateId hmark hname hpair first =>
      exact ⟨_, hpair.subset List.mem_cons_self, by simp [hmark], rfl, by simp⟩
  | duplicateAttribute hlist hmem _ | malformedStyle hlist hmem _ _ | inside hlist hmem _ =>
      exact ⟨_, hlist.mem hmem, hlist.kind_ne hmem (by decide), rfl, by simp⟩
  | closing hlist hexpected =>
      exact ⟨_, hlist.closing_mem, by simp [hlist.kind_closing], rfl, by simp⟩

/-- The scanner makes sure of names behind their marks, so none is ever missed. -/
theorem expected_not_mem
    (h : Complaint tokens e)
    {expected : Expected}
    {found : String}
    (hproblem : e.problem = .unexpected expected found) :
    expected ∉ [.className, .idName, .node] := by
  cases h with
  | headerBeforeBlock ht hkind =>
      cases hproblem
      decide
  | inside hlist hmem hexpected | closing hlist hexpected =>
      cases hproblem
      revert hexpected
      revert expected
      decide
  | _ => cases hproblem

end Complaint

end Reader

namespace Token

/-- Only the end of the input is described as such. -/
theorem describe_ne_endOfInput
    {t : Token}
    (h : t.kind ≠ .endOfInput) :
    t.describe ≠ "end of input" := by
  intro heq
  have hfirst := congrArg (fun text => text.toList.take 8) heq
  obtain ⟨kind, text, position⟩ := t
  cases kind <;> simp [describe] at h hfirst

end Token

namespace Document

/-- A whole run: whatever is complained about stands among the tokens. -/
theorem ofTokens_complaint
    {tokens : List Token}
    (horderly : Token.Orderly tokens)
    {e : TreeError}
    (hread : ofTokens tokens = .error e) :
    Reader.Complaint tokens e := by
  have hblocks : Reader.start.BlocksIn tokens := List.forall_mem_nil _
  exact Reader.run_complaint _ horderly List.suffix_rfl hblocks hread

/-- Tokens that were cut from a source have whole headers, so that they can be read or give one of
the complaints. What is blamed is always a token of the source, never its end, and no name is missed
behind a `.` or a `#` and no node between others. -/
theorem ofTokens_scan_complaint
    {source : String}
    {tokens : List Token}
    (hscan : Token.scan source = .ok tokens) :
    (∃ document, ofTokens tokens = .ok document) ∨
      ∃ e, ofTokens tokens = .error e ∧ Reader.Complaint tokens e ∧
        (∃ t ∈ tokens, t.kind ≠ .endOfInput ∧ e.position = t.position) ∧
        ∀ expected found, e.problem = .unexpected expected found →
          expected ∉ [.className, .idName, .node] ∧ found ≠ "end of input" := by
  cases hread : ofTokens tokens with
  | ok document =>
      exact .inl ⟨document, rfl⟩
  | error e =>
      have hcomplaint := ofTokens_complaint (Token.scan_scanned hscan).orderly hread
      obtain ⟨t, ht, hkind, hposition, hfound⟩ := hcomplaint.exists_blamed
      refine .inr ⟨e, rfl, hcomplaint, ⟨t, ht, hkind, hposition⟩, fun expected found hproblem => ?_⟩
      rw [hfound expected found hproblem]
      exact ⟨hcomplaint.expected_not_mem hproblem, Token.describe_ne_endOfInput hkind⟩

/-- Two attributes without a comma between them, inside of a block. -/
def missingComma : String := "ul.wide#nav \x7b\n  li(title: \"one\" lang: \"en\") first\n\x7d\n"

def missingCommaError : TreeError :=
  ⟨.unexpected .attributeEnd "identifier `lang`", ⟨2, 19⟩⟩

theorem ofTokens_scan_complaint_missingComma :
    ∃ tokens, Token.scan missingComma = .ok tokens ∧
      ofTokens tokens = .error missingCommaError ∧
      Reader.Complaint tokens missingCommaError := by
  have hread : (Token.scan missingComma).toOption.map ofTokens =
      some (.error missingCommaError) := by decide +kernel
  cases hscan : Token.scan missingComma with
  | error e => simp [hscan, Except.toOption] at hread
  | ok tokens =>
      have herror : ofTokens tokens = .error missingCommaError := by
        simpa [hscan, Except.toOption] using hread
      refine ⟨tokens, rfl, herror, ?_⟩
      rcases ofTokens_scan_complaint hscan with ⟨document, hdocument⟩ | ⟨e, he, hcomplaint, -⟩
      · cases herror.symm.trans hdocument
      · cases herror.symm.trans he
        exact hcomplaint

/-- Where a value is missing behind the last colon, the parenthesis that closes the list is blamed,
which does not stand inside of the list. -/
theorem ofTokens_blames_closing_parenthesis :
    ∃ tokens, Token.scan "f(x: )" = .ok tokens ∧
      ofTokens tokens = .error ⟨.unexpected .attributeValue "`)`", ⟨1, 6⟩⟩ ∧
      ∀ inside closing, Reader.HasList tokens inside closing →
        ∀ t ∈ inside, t.position ≠ ⟨1, 6⟩ := by
  refine ⟨[⟨.identifier, "f", ⟨1, 1⟩⟩, ⟨.parenOpen, "(", ⟨1, 2⟩⟩, ⟨.identifier, "x", ⟨1, 3⟩⟩,
    ⟨.colon, ":", ⟨1, 4⟩⟩, ⟨.parenClose, ")", ⟨1, 6⟩⟩, ⟨.endOfInput, "", ⟨1, 7⟩⟩],
    by decide +kernel, by decide +kernel, ?_⟩
  intro inside closing hlist t ht
  have hmem := hlist.mem ht
  have hkind := hlist.kind_mem ht
  clear ht hlist
  revert t
  decide

end Document

end BlockMarkup
