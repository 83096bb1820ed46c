import BlockMarkup.Proofs.Node.Places
import BlockMarkup.Proofs.Node.WellFormed

/-!
# Which attribute a string literal belongs to

In a source that can be read, every string literal is the value of an attribute of an element. Which
attribute and which element is told by the tokens in front of it: they end with the beginning of the
element's heading, and that ends with the attribute's name and a colon.
-/

namespace BlockMarkup

section Prefixes

variable {α : Type} {before xs ys : List α} {a : α}

/-- A beginning of `xs ++ ys` ends in `xs` or in `ys`. -/
theorem concat_prefix_append
    (h : before ++ [a] <+: xs ++ ys) :
    before ++ [a] <+: xs ∨ ∃ more, before = xs ++ more ∧ more ++ [a] <+: ys := by
  obtain hlt | hle := Nat.lt_or_ge before.length xs.length
  · exact .inl (List.prefix_of_prefix_length_le h (List.prefix_append xs ys) (by simpa using hlt))
  · obtain ⟨more, rfl⟩ : xs <+: before :=
      List.prefix_of_prefix_length_le (List.prefix_append xs ys)
        ((List.prefix_append before [a]).trans h) hle
    rw [List.append_assoc, List.prefix_append_right_inj] at h
    exact .inr ⟨more, rfl, h⟩

theorem concat_prefix_append_of_not_mem
    (hnot : a ∉ xs)
    (h : before ++ [a] <+: xs ++ ys) :
    ∃ more, before = xs ++ more ∧ more ++ [a] <+: ys := by
  obtain hxs | hys := concat_prefix_append h
  · exact absurd (hxs.subset (by simp)) hnot
  · exact hys

theorem concat_prefix_cons
    {x : α}
    (hne : a ≠ x)
    (h : before ++ [a] <+: x :: ys) :
    ∃ more, before = x :: more ∧ more ++ [a] <+: ys := by
  have hnot : a ∉ [x] := by
    simpa using hne
  exact concat_prefix_append_of_not_mem hnot h

end Prefixes

namespace Grammar

variable {before : List Token} {literal : Token}

theorem ne_terminal
    {kind : TokenKind}
    (hliteral : literal.kind = .stringLiteral)
    (hkind : kind ≠ .stringLiteral)
    (t : Terminal kind) :
    literal ≠ t.1 := by
  rintro rfl
  exact hkind (t.2.symm.trans hliteral)

theorem concat_prefix_terminal
    {kind : TokenKind}
    {ys : List Token}
    (hliteral : literal.kind = .stringLiteral)
    (hkind : kind ≠ .stringLiteral)
    (t : Terminal kind)
    (h : before ++ [literal] <+: t.1 :: ys) :
    ∃ more, before = t.1 :: more ∧ more ++ [literal] <+: ys :=
  concat_prefix_cons (ne_terminal hliteral hkind t) h

/-- The only literal of a pair is its last token. -/
theorem Pair.eq_tokens_of_prefix
    {p : Pair}
    (hliteral : literal.kind = .stringLiteral)
    (h : before ++ [literal] <+: p.tokens) :
    before ++ [literal] = p.tokens := by
  obtain ⟨more, rfl, hcolon⟩ := concat_prefix_terminal hliteral (by decide) p.name h
  obtain ⟨more, rfl, hvalue⟩ := concat_prefix_terminal hliteral (by decide) p.colon hcolon
  have hlength : (more ++ [literal]).length = [p.value.1].length :=
    Nat.le_antisymm hvalue.length_le (by simp)
  simp [tokens, hvalue.eq_of_length hlength]

/-- A literal inside a list is the value of a pair. -/
theorem Pairs.exists_pair
    (ps : Pairs)
    (hliteral : literal.kind = .stringLiteral)
    (h : before ++ [literal] <+: ps.tokens) :
    ∃ p ∈ ps.toList, ∃ inner, before ++ [literal] = inner ++ p.tokens := by
  induction ps generalizing before with
  | one p =>
      exact ⟨p, by simp [toList], [], Pair.eq_tokens_of_prefix hliteral h⟩
  | trailing p comma =>
      obtain hpair | ⟨more, -, hcomma⟩ := concat_prefix_append h
      · exact ⟨p, by simp [toList], [], Pair.eq_tokens_of_prefix hliteral hpair⟩
      · obtain ⟨more, -, hnil⟩ := concat_prefix_terminal hliteral (by decide) comma hcomma
        simp at hnil
  | more p comma ps ih =>
      obtain hpair | ⟨more, rfl, hcomma⟩ := concat_prefix_append h
      · exact ⟨p, by simp [toList], [], Pair.eq_tokens_of_prefix hliteral hpair⟩
      · obtain ⟨more, rfl, hrest⟩ := concat_prefix_terminal hliteral (by decide) comma hcomma
        obtain ⟨q, hq, inner, hinner⟩ := ih hrest
        refine ⟨q, by simp [toList, hq], p.tokens ++ comma.1 :: inner, ?_⟩
        simp [hinner]

/-- A literal inside a heading is the value of an attribute. -/
theorem Heading.exists_pair
    (heading : Heading)
    (hliteral : literal.kind = .stringLiteral)
    (h : before ++ [literal] <+: heading.tokens) :
    ∃ p ∈ heading.parens.pairs, ∃ inner, before ++ [literal] = inner ++ p.tokens := by
  have hnot : literal ∉ heading.decorations.flatMap Decoration.tokens := by
    intro hmem
    obtain ⟨d, -, hd⟩ := List.mem_flatMap.1 hmem
    cases d with
    | className mark name | id mark name =>
        simp only [Decoration.tokens, List.mem_cons, List.not_mem_nil, or_false] at hd
        exact hd.elim (ne_terminal hliteral (by decide) mark)
          (ne_terminal hliteral (by decide) name)
  obtain ⟨more, rfl, hbehind⟩ := concat_prefix_terminal hliteral (by decide) heading.tag h
  obtain ⟨more, rfl, hparens⟩ := concat_prefix_append_of_not_mem hnot hbehind
  cases hps : heading.parens with
  | absent =>
      rw [hps] at hparens
      simp [Parens.tokens] at hparens
  | empty opening closing =>
      rw [hps] at hparens
      have hmem := hparens.subset (a := literal) (by simp)
      simp only [Parens.tokens, List.mem_cons, List.not_mem_nil, or_false] at hmem
      exact absurd hmem (not_or.2 ⟨ne_terminal hliteral (by decide) opening,
        ne_terminal hliteral (by decide) closing⟩)
  | filled opening ps closing =>
      rw [hps] at hparens
      obtain ⟨more, rfl, hlist⟩ := concat_prefix_terminal hliteral (by decide) opening hparens
      obtain hpairs | ⟨more, -, hclosing⟩ := concat_prefix_append hlist
      · obtain ⟨p, hp, inner, hinner⟩ := ps.exists_pair hliteral hpairs
        refine ⟨p, hp, heading.tag.1 ::
          (heading.decorations.flatMap Decoration.tokens ++ opening.1 :: inner), ?_⟩
        simp [hinner]
      · obtain ⟨more, -, hnil⟩ :=
          concat_prefix_terminal hliteral (by decide) closing hclosing
        simp at hnil

/-- The tokens `front` end with the heading's tokens up to its pair `p`. -/
structure EndsInPair (front : List Token) (heading : Heading) (p : Pair) : Prop where
  mem : p ∈ heading.parens.pairs
  stands : ∃ outer inner, front = outer ++ (inner ++ p.tokens) ∧
    inner ++ p.tokens <+: heading.tokens

theorem EndsInPair.behind
    {front : List Token}
    {heading : Heading}
    {p : Pair}
    (h : EndsInPair front heading p)
    (more : List Token) :
    EndsInPair (more ++ front) heading p := by
  obtain ⟨outer, inner, rfl, hheading⟩ := h.stands
  exact ⟨h.mem, more ++ outer, inner, by simp, hheading⟩

theorem EndsInPair.tokens_eq
    {t : Token}
    {heading : Heading}
    {p : Pair}
    (h : EndsInPair (before ++ [t]) heading p) :
    p.value.1 = t ∧ before.reverse[1]? = some p.name.1 := by
  obtain ⟨outer, inner, heq, -⟩ := h.stands
  have hreverse := congrArg List.reverse heq
  simp only [List.reverse_append, Pair.tokens, List.reverse_cons, List.reverse_nil, List.nil_append,
    List.cons_append, List.cons.injEq] at hreverse
  exact ⟨hreverse.1.symm, by rw [hreverse.2]; rfl⟩

/-- Tokens up to a literal inside a heading end in one of its attributes. -/
theorem Heading.exists_endsInPair
    (heading : Heading)
    (hliteral : literal.kind = .stringLiteral)
    (h : before ++ [literal] <+: heading.tokens) :
    ∃ p, EndsInPair (before ++ [literal]) heading p := by
  obtain ⟨p, hp, inner, hinner⟩ := heading.exists_pair hliteral h
  exact ⟨p, hp, [], inner, hinner, hinner ▸ h⟩

/-- A literal in a derivation is the value of a pair of one of its elements. -/
theorem Content.exists_endsInPair
    (c : Content)
    (hliteral : literal.kind = .stringLiteral)
    (h : before ++ [literal] <+: c.tokens) :
    ∃ heading p, EndsInPair (before ++ [literal]) heading p ∧
      .element (heading.header none) [] ∈ Node.preorderList c.nodes := by
  -- Along the derivation; the tokens before a part stay in front of what is found in it.
  induction c generalizing before with
  | nil =>
      simp [tokens] at h
  | layout token more ih =>
      have hne : literal ≠ token.1 := by
        rintro rfl
        obtain hkind | hkind | hkind := token.2 <;> simp [hliteral] at hkind
      obtain ⟨more, rfl, hrest⟩ := concat_prefix_cons hne h
      obtain ⟨heading, p, hends, hmem⟩ := ih hrest
      exact ⟨heading, p, hends.behind [token.1], hmem⟩
  | text run more ih =>
      obtain ⟨more, rfl, hrest⟩ := concat_prefix_terminal hliteral (by decide) run h
      obtain ⟨heading, p, hends, hmem⟩ := ih hrest
      exact ⟨heading, p, hends.behind [run.1], by simp [nodes, Node.preorderList, hmem]⟩
  | element heading more ih =>
      obtain hheading | ⟨more, rfl, hrest⟩ := concat_prefix_append h
      · obtain ⟨p, hends⟩ := heading.exists_endsInPair hliteral hheading
        exact ⟨heading, p, hends, by simp [nodes, Node.preorderList, Node.preorder]⟩
      · obtain ⟨other, p, hends, hmem⟩ := ih hrest
        refine ⟨other, p, ?_, by simp [nodes, Node.preorderList, hmem]⟩
        rw [List.append_assoc]
        exact hends.behind heading.tokens
  | block heading opening inside closing more ihinside ih =>
      obtain hheading | ⟨more, rfl, hopening⟩ := concat_prefix_append h
      · obtain ⟨p, hends⟩ := heading.exists_endsInPair hliteral hheading
        exact ⟨heading, p, hends, by simp [nodes, Node.preorderList, Node.preorder]⟩
      · obtain ⟨more, rfl, hblock⟩ :=
          concat_prefix_terminal hliteral (by decide) opening hopening
        obtain hinside | ⟨more, rfl, hclosing⟩ := concat_prefix_append hblock
        · obtain ⟨other, p, hends, hmem⟩ := ihinside hinside
          refine ⟨other, p, ?_, by simp [nodes, Node.preorderList, Node.preorder, hmem]⟩
          simpa using hends.behind (heading.tokens ++ [opening.1])
        · obtain ⟨more, rfl, hrest⟩ :=
            concat_prefix_terminal hliteral (by decide) closing hclosing
          obtain ⟨other, p, hends, hmem⟩ := ih hrest
          refine ⟨other, p, ?_, by simp [nodes, Node.preorderList, hmem]⟩
          simpa using hends.behind (heading.tokens ++ opening.1 :: (inside.tokens ++ [closing.1]))

end Grammar

namespace Document

variable {source file : String} {document : Document}

/-- Nesting changes no header of a derivation. -/
theorem headers_of_derivation
    {parsed : Document}
    {c : Grammar.Content}
    (hnodes : parsed.map (Node.relabel .unmarked) = c.nodes)
    (hnest : parsed.nest = .ok document) :
    document.headers = headers c.nodes := by
  obtain ⟨hwell, rfl⟩ := (nest_eq_ok_iff _ _).1 hnest
  rw [headers, headers, preorderList_arranged hwell, ← hnodes, Node.preorderList_relabel,
    List.filterMap_map, List.filterMap_map]
  refine List.filterMap_congr fun n _ => ?_
  cases n with
  | element header children => simp [Node.header?, Node.unmarked, Relabelling.unmarked]
  | text run => simp [Node.header?, Node.unmarked]

/-- A literal of a source that can be read is the value of an attribute of an element. -/
theorem exists_endsInPair_of_read
    {before behind : List Token}
    {literal : Token}
    (hread : read source file = .ok document)
    (hliteral : literal.kind = .stringLiteral)
    (hscan : Token.scan source = .ok (before ++ literal :: behind)) :
    ∃ heading p, Grammar.EndsInPair (before ++ [literal]) heading p ∧
      heading.header none ∈ document.headers := by
  obtain ⟨parsed, hparse, hnest⟩ := read_eq_ok hread
  obtain ⟨tokens, htokens, hparsed⟩ := parse_eq_ok hparse
  obtain rfl : tokens = before ++ literal :: behind := by
    simpa [htokens] using hscan
  obtain ⟨c, rest, heq, hrest, -, hnodes⟩ := exists_derivation hparsed
  -- the last token is the end of input, which is no literal
  obtain ⟨-, found, last, hfound, hlast, -, hend⟩ := Token.scan_tiles hscan
  have hahead : Reader.kindAhead [last] = .endOfInput := hlast
  have hc : found = c.tokens :=
    eq_of_append_eq_append hend c.kind_ne_endOfInput hahead hrest (hfound.symm.trans heq)
  have hall : before ++ [literal] <+: c.tokens ++ [last] :=
    ⟨behind, by rw [List.append_assoc, List.singleton_append, hfound, hc]⟩
  have hprefix : before ++ [literal] <+: c.tokens := by
    obtain hinside | ⟨more, -, hmore⟩ := concat_prefix_append hall
    · exact hinside
    · have hne : literal ≠ last := by
        rintro rfl
        simp [hliteral] at hlast
      obtain ⟨more, -, hnil⟩ := concat_prefix_cons hne hmore
      simp at hnil
  obtain ⟨heading, p, hends, hmem⟩ := c.exists_endsInPair hliteral hprefix
  rw [headers_of_derivation hnodes hnest]
  exact ⟨heading, p, hends, List.mem_filterMap.2 ⟨_, hmem, rfl⟩⟩

end Document

end BlockMarkup
