import BlockMarkup.Node.Reader
import BlockMarkup.Proofs.Attribute.Declarations

/-!
# The grammar of documents

```text
Content ::= Layout* (Node Layout*)*
Node    ::= TextRun | Heading [BraceOpen Content BraceClose]
Heading ::= Identifier ((Dot | Hash) Identifier)* [ParenOpen [Pairs] ParenClose]
Pairs   ::= Pair (Comma Pair)* [Comma]
Pair    ::= Identifier Colon StringLiteral
```

Here `Layout` is a line break or a change of indentation. A heading has at most one `Hash`, the
names of its pairs are distinct, and the value of `style` is a list of declarations.

A derivation is a value of the types below. It knows the tokens that it derives and the nodes that
it stands for, and no two derivations have the same tokens.
-/

namespace BlockMarkup

namespace Grammar

/-- A token of one kind. -/
abbrev Terminal (kind : TokenKind) := { t : Token // t.kind = kind }

abbrev Layout := { t : Token // t.kind = .newline ∨ t.kind = .indent ∨ t.kind = .dedent }

structure Pair where
  name : Terminal .identifier
  colon : Terminal .colon
  value : Terminal .stringLiteral

namespace Pair

def tokens (p : Pair) : List Token := [p.name.1, p.colon.1, p.value.1]

def key (p : Pair) : String := p.name.1.text

def text (p : Pair) : String := p.value.1.text

def Readable (p : Pair) : Prop :=
  p.key = Attribute.styleName → Style.IsDeclarationList p.text

/-- What the name makes of the value; a style that cannot be read counts as a plain text. -/
def entry (p : Pair) : String × Attribute :=
  (p.key, (Attribute.derive p.key p.text).toOption.getD (.text p.text))

end Pair

inductive Pairs where
  | one (pair : Pair)
  | trailing (pair : Pair) (comma : Terminal .comma)
  | more (pair : Pair) (comma : Terminal .comma) (rest : Pairs)

namespace Pairs

def tokens : Pairs → List Token
  | one pair => pair.tokens
  | trailing pair comma => pair.tokens ++ [comma.1]
  | more pair comma rest => pair.tokens ++ comma.1 :: rest.tokens

def toList : Pairs → List Pair
  | one pair | trailing pair _ => [pair]
  | more pair _ rest => pair :: rest.toList

end Pairs

/-- What stands between parentheses, if there are any. -/
inductive Parens where
  | absent
  | empty (opening : Terminal .parenOpen) (closing : Terminal .parenClose)
  | filled (opening : Terminal .parenOpen) (pairs : Pairs) (closing : Terminal .parenClose)

namespace Parens

def tokens : Parens → List Token
  | absent => []
  | empty opening closing => [opening.1, closing.1]
  | filled opening pairs closing => opening.1 :: (pairs.tokens ++ [closing.1])

def pairs : Parens → List Pair
  | absent | empty _ _ => []
  | filled _ pairs _ => pairs.toList

end Parens

inductive Decoration where
  | className (dot : Terminal .dot) (name : Terminal .identifier)
  | id (hash : Terminal .hash) (name : Terminal .identifier)

namespace Decoration

def tokens : Decoration → List Token
  | className mark name => [mark.1, name.1]
  | id mark name => [mark.1, name.1]

def className? : Decoration → Option String
  | className _ name => some name.1.text
  | id _ _ => none

def id? : Decoration → Option String
  | className _ _ => none
  | id _ name => some name.1.text

end Decoration

structure Heading where
  tag : Terminal .identifier
  decorations : List Decoration
  parens : Parens
  ids_le_one : (decorations.filterMap Decoration.id?).length ≤ 1
  keys_nodup : (parens.pairs.map Pair.key).Nodup
  readable : ∀ p ∈ parens.pairs, p.Readable

namespace Heading

/-- The tokens behind the tag. -/
def behind (h : Heading) : List Token := h.decorations.flatMap Decoration.tokens ++ h.parens.tokens

def tokens (h : Heading) : List Token := h.tag.1 :: h.behind

/-- The header that is written: classes, id and attributes in the order of their tokens. -/
def header (h : Heading) (indent : Option Nat) : Header where
  tag := h.tag.1.text
  id := (h.decorations.filterMap Decoration.id?).head?
  classes := h.decorations.filterMap Decoration.className?
  attributes :=
    ⟨h.parens.pairs.map Pair.entry, by simpa [Pair.entry, Function.comp_def] using h.keys_nodup⟩
  position := h.tag.1.position
  indent := indent

end Heading

/-- Layout and nodes from left to right, in any order. -/
inductive Content where
  | nil
  | layout (token : Layout) (rest : Content)
  | text (run : Terminal .textRun) (rest : Content)
  | element (heading : Heading) (rest : Content)
  | block (heading : Heading) (opening : Terminal .braceOpen) (inside : Content)
      (closing : Terminal .braceClose) (rest : Content)

namespace Content

def tokens : Content → List Token
  | nil => []
  | layout token rest => token.1 :: rest.tokens
  | text run rest => run.1 :: rest.tokens
  | element heading rest => heading.tokens ++ rest.tokens
  | block heading opening inside closing rest =>
      heading.tokens ++ opening.1 :: (inside.tokens ++ closing.1 :: rest.tokens)

/-- How deep blocks are nested. -/
def depth : Content → Nat
  | nil => 0
  | layout _ rest | text _ rest | element _ rest => rest.depth
  | block _ _ inside _ rest => max (inside.depth + 1) rest.depth

/-- The nodes that are written, without line markers. -/
def nodes : Content → List Node
  | nil => []
  | layout _ rest => rest.nodes
  | text run rest => .text ⟨run.1.text, run.1.position, none⟩ :: rest.nodes
  | element heading rest => .element (heading.header none) [] :: rest.nodes
  | block heading _ inside _ rest => .element (heading.header none) inside.nodes :: rest.nodes

end Content

/-! ## Derivations are unique -/

variable {kind : TokenKind} {rest rest' : List Token}

open Reader (kindAhead)

@[simp] theorem kind_terminal
    (t : Terminal kind) :
    t.1.kind = kind := t.2

@[simp] theorem kindAhead_cons
    (t : Token) :
    kindAhead (t :: rest) = t.kind := rfl

theorem Pair.tokens_append_inj
    {p q : Pair}
    (h : p.tokens ++ rest = q.tokens ++ rest') :
    p = q ∧ rest = rest' := by
  obtain ⟨name, colon, value⟩ := p
  obtain ⟨name', colon', value'⟩ := q
  simpa [tokens, Subtype.ext_iff, and_assoc] using h

theorem Pairs.kindAhead_tokens
    (ps : Pairs) :
    kindAhead (ps.tokens ++ rest) = .identifier := by
  cases ps <;> simp [tokens, Pair.tokens]

/-- Pairs up to a parenthesis are derived in one way only. -/
theorem Pairs.tokens_append_inj
    {ps qs : Pairs}
    {closing closing' : Terminal .parenClose}
    (h : ps.tokens ++ closing.1 :: rest = qs.tokens ++ closing'.1 :: rest') :
    ps = qs ∧ closing = closing' ∧ rest = rest' := by
  -- behind the first pair, the kind of the next two tokens tells the three forms apart
  have hbehind : ∀ {p q : Pair} {more more' : List Token},
      p.tokens ++ more = q.tokens ++ more' → p = q ∧ more = more' ∧ kindAhead more = kindAhead more'
        ∧ kindAhead more.tail = kindAhead more'.tail := by
    intro p q more more' heq
    obtain ⟨rfl, rfl⟩ := Pair.tokens_append_inj heq
    simp
  induction ps generalizing qs with
  | one p =>
      cases qs with
      | one q =>
          obtain ⟨rfl, heq, -⟩ := hbehind h
          simpa [Subtype.ext_iff] using heq
      | trailing q comma =>
          simp only [tokens, List.append_assoc] at h
          simpa using (hbehind h).2.2.1
      | more q comma qs =>
          simp only [tokens, List.append_assoc] at h
          simpa using (hbehind h).2.2.1
  | trailing p comma =>
      cases qs with
      | one q =>
          simp only [tokens, List.append_assoc] at h
          simpa using (hbehind h).2.2.1
      | trailing q comma' =>
          simp only [tokens, List.append_assoc] at h
          obtain ⟨rfl, heq, -⟩ := hbehind h
          simpa [Subtype.ext_iff, and_assoc] using heq
      | more q comma' qs =>
          simp only [tokens, List.append_assoc] at h
          simpa [kindAhead_tokens] using (hbehind h).2.2.2
  | more p comma ps ih =>
      cases qs with
      | one q =>
          simp only [tokens, List.append_assoc] at h
          simpa using (hbehind h).2.2.1
      | trailing q comma' =>
          simp only [tokens, List.append_assoc] at h
          simpa [kindAhead_tokens] using (hbehind h).2.2.2
      | more q comma' qs =>
          simp only [tokens, List.append_assoc] at h
          obtain ⟨rfl, heq, -⟩ := hbehind h
          rw [List.cons_append, List.cons_append, List.cons.injEq] at heq
          obtain ⟨rfl, hclosing⟩ := ih heq.2
          exact ⟨by rw [Subtype.ext heq.1], hclosing⟩

/-- Whether a heading may end before the tokens `rest`. -/
structure EndsHeading (rest : List Token) : Prop where
  not_dot : kindAhead rest ≠ .dot
  not_hash : kindAhead rest ≠ .hash
  not_parenOpen : kindAhead rest ≠ .parenOpen

/-- An attribute list, or none, is derived in one way only. -/
theorem Parens.tokens_append_inj
    {ps qs : Parens}
    (hrest : EndsHeading rest)
    (hrest' : EndsHeading rest')
    (h : ps.tokens ++ rest = qs.tokens ++ rest') :
    ps = qs ∧ rest = rest' := by
  have hahead := congrArg kindAhead h
  have hinside := congrArg (kindAhead ·.tail) h
  cases ps with
  | absent =>
      cases qs with
      | absent => exact ⟨rfl, h⟩
      | empty | filled => exact absurd hahead (by simpa [tokens] using hrest.not_parenOpen)
  | empty opening closing =>
      cases qs with
      | absent => exact absurd hahead.symm (by simpa [tokens] using hrest'.not_parenOpen)
      | empty opening' closing' => simpa [tokens, Subtype.ext_iff, and_assoc] using h
      | filled opening' qs closing' => simp [tokens, Pairs.kindAhead_tokens] at hinside
  | filled opening ps closing =>
      cases qs with
      | absent => exact absurd hahead.symm (by simpa [tokens] using hrest'.not_parenOpen)
      | empty opening' closing' => simp [tokens, Pairs.kindAhead_tokens] at hinside
      | filled opening' qs closing' =>
          simp only [tokens, List.cons_append, List.append_assoc, List.cons.injEq] at h
          obtain ⟨rfl, rfl, rfl⟩ := Pairs.tokens_append_inj h.2
          exact ⟨by rw [Subtype.ext h.1], rfl⟩

theorem Parens.kindAhead_tokens_ne
    (ps : Parens)
    (hkind : kind ≠ .parenOpen)
    (hrest : kindAhead rest ≠ kind) :
    kindAhead (ps.tokens ++ rest) ≠ kind := by
  cases ps with
  | absent => exact hrest
  | empty | filled => simpa [tokens] using hkind.symm

theorem Decoration.tokens_append_inj
    {d e : Decoration}
    (h : d.tokens ++ rest = e.tokens ++ rest') :
    d = e ∧ rest = rest' := by
  have hahead := congrArg kindAhead h
  cases d <;> cases e
  · simpa [tokens, Subtype.ext_iff, and_assoc] using h
  · simp [tokens] at hahead
  · simp [tokens] at hahead
  · simpa [tokens, Subtype.ext_iff, and_assoc] using h

/-- Decorations up to something else are derived in one way only. -/
theorem Decoration.flatMap_tokens_append_inj
    {ds es : List Decoration}
    (hdot : kindAhead rest ≠ .dot)
    (hhash : kindAhead rest ≠ .hash)
    (hdot' : kindAhead rest' ≠ .dot)
    (hhash' : kindAhead rest' ≠ .hash)
    (h : ds.flatMap tokens ++ rest = es.flatMap tokens ++ rest') :
    ds = es ∧ rest = rest' := by
  have hstop : ∀ {d : Decoration} {more tokens : List Token}, kindAhead tokens ≠ .dot →
      kindAhead tokens ≠ .hash → tokens ≠ d.tokens ++ more := by
    rintro d more _ hdot hhash rfl
    cases d
    · exact hdot (by simp [tokens])
    · exact hhash (by simp [tokens])
  induction ds generalizing es with
  | nil =>
      cases es with
      | nil => exact ⟨rfl, h⟩
      | cons e es => exact absurd (by simpa using h) (hstop hdot hhash)
  | cons d ds ih =>
      cases es with
      | nil => exact absurd (by simpa using h.symm) (hstop hdot' hhash')
      | cons e es =>
          simp only [List.flatMap_cons, List.append_assoc] at h
          obtain ⟨rfl, heq⟩ := tokens_append_inj h
          obtain ⟨rfl, hrest⟩ := ih heq
          exact ⟨rfl, hrest⟩

/-- A heading is derived in one way only. -/
theorem Heading.tokens_append_inj
    {g h : Heading}
    (hrest : EndsHeading rest)
    (hrest' : EndsHeading rest')
    (heq : g.tokens ++ rest = h.tokens ++ rest') :
    g = h ∧ rest = rest' := by
  obtain ⟨tag, ds, ps, _, _, _⟩ := g
  obtain ⟨tag', ds', ps', _, _, _⟩ := h
  simp only [tokens, behind, List.cons_append, List.append_assoc, List.cons.injEq] at heq
  have hdot := ps.kindAhead_tokens_ne (by decide) hrest.not_dot
  have hhash := ps.kindAhead_tokens_ne (by decide) hrest.not_hash
  have hdot' := ps'.kindAhead_tokens_ne (by decide) hrest'.not_dot
  have hhash' := ps'.kindAhead_tokens_ne (by decide) hrest'.not_hash
  obtain ⟨rfl, heq'⟩ := Decoration.flatMap_tokens_append_inj hdot hhash hdot' hhash' heq.2
  obtain ⟨rfl, rfl⟩ := Parens.tokens_append_inj hrest hrest' heq'
  obtain rfl := Subtype.ext heq.1
  exact ⟨rfl, rfl⟩

theorem Pairs.kind_ne_endOfInput
    (ps : Pairs) :
    ∀ t ∈ ps.tokens, t.kind ≠ .endOfInput := by
  induction ps with
  | one p => simp [tokens, Pair.tokens]
  | trailing p comma => simp [tokens, Pair.tokens]
  | more p comma ps ih => simpa [tokens, Pair.tokens] using ih

theorem Heading.kind_ne_endOfInput
    (h : Heading) :
    ∀ t ∈ h.tokens, t.kind ≠ .endOfInput := by
  have hdecorations : ∀ d : Decoration, ∀ t ∈ d.tokens, t.kind ≠ .endOfInput := by
    intro d
    cases d <;> simp [Decoration.tokens]
  have hparens : ∀ t ∈ h.parens.tokens, t.kind ≠ .endOfInput := by
    cases h.parens with
    | absent => simp [Parens.tokens]
    | empty => simp [Parens.tokens]
    | filled opening ps closing =>
        simpa [Parens.tokens, or_imp, forall_and] using ps.kind_ne_endOfInput
  intro t ht
  rw [tokens, behind, List.mem_cons, List.mem_append, List.mem_flatMap] at ht
  obtain rfl | ⟨d, -, ht⟩ | ht := ht
  · simp
  · exact hdecorations d t ht
  · exact hparens t ht

/-- Whether content may end before the tokens `rest`. -/
def EndsContent (rest : List Token) : Prop :=
  kindAhead rest = .braceClose ∨ kindAhead rest = .endOfInput

theorem endsHeading_opening
    (opening : Terminal .braceOpen) :
    EndsHeading (opening.1 :: rest) :=
  ⟨by simp, by simp, by simp⟩

theorem endsContent_closing
    (closing : Terminal .braceClose) :
    EndsContent (closing.1 :: rest) :=
  .inl closing.2

namespace Content

/-- The kinds of token with which content begins. -/
def starts : List TokenKind := [.newline, .indent, .dedent, .textRun, .identifier]

/-- Content that is not empty starts with one of a few tokens. -/
theorem kindAhead_mem_starts
    {c : Content}
    (hc : c ≠ nil) :
    kindAhead (c.tokens ++ rest) ∈ starts := by
  cases c with
  | nil =>
      exact absurd rfl hc
  | layout token more =>
      obtain h | h | h := token.2 <;> simp [tokens, h, starts]
  | text | element | block =>
      simp [tokens, Heading.tokens, starts]

theorem not_mem_starts
    (hrest : EndsContent rest) :
    kindAhead rest ∉ starts := by
  obtain h | h := hrest <;> rw [h] <;> decide

/-- Where content ends, no more can be derived. -/
theorem eq_nil_of_eq_append
    {c : Content}
    (hrest : EndsContent rest)
    (h : rest = c.tokens ++ rest') :
    c = nil := by
  by_contra hc
  exact not_mem_starts hrest (h ▸ kindAhead_mem_starts hc)

/-- Behind a heading stands no token that could continue it. -/
theorem endsHeading_tokens_append
    (c : Content)
    (hrest : EndsContent rest) :
    EndsHeading (c.tokens ++ rest) ∧ kindAhead (c.tokens ++ rest) ≠ .braceOpen := by
  have hkind : ∀ k, k ∉ starts → k ≠ .braceClose → k ≠ .endOfInput →
      kindAhead (c.tokens ++ rest) ≠ k := by
    rintro _ hstarts hclose hend rfl
    by_cases hc : c = nil
    · subst hc
      exact hrest.elim hclose hend
    · exact hstarts (kindAhead_mem_starts hc)
  refine ⟨⟨hkind _ ?_ ?_ ?_, hkind _ ?_ ?_ ?_, hkind _ ?_ ?_ ?_⟩, hkind _ ?_ ?_ ?_⟩ <;> decide

/-- Layout is told from a node by its first token. -/
theorem not_layout
    {token : Layout}
    {more tokens : List Token}
    (h : token.1 :: more = tokens) :
    kindAhead tokens ≠ .textRun ∧ kindAhead tokens ≠ .identifier := by
  obtain hkind | hkind | hkind := token.2 <;> simp [← h, hkind]

/-- The same tokens are derived in one way only, up to where content ends. -/
theorem tokens_append_inj
    {c d : Content}
    (hrest : EndsContent rest)
    (hrest' : EndsContent rest')
    (h : c.tokens ++ rest = d.tokens ++ rest') :
    c = d ∧ rest = rest' := by
  induction c generalizing d rest rest' with
  | nil =>
      obtain rfl := eq_nil_of_eq_append hrest h
      exact ⟨rfl, h⟩
  | layout token more ih =>
      cases d with
      | nil =>
          cases eq_nil_of_eq_append hrest' h.symm
      | layout token' more' =>
          simp only [tokens, List.cons_append, List.cons.injEq] at h
          obtain ⟨rfl, rfl⟩ := ih hrest hrest' h.2
          exact ⟨by rw [Subtype.ext h.1], rfl⟩
      | text | element | block =>
          simpa [tokens, Heading.tokens] using not_layout h
  | text run more ih =>
      cases d with
      | nil =>
          cases eq_nil_of_eq_append hrest' h.symm
      | layout =>
          simpa [tokens] using not_layout h.symm
      | text run' more' =>
          simp only [tokens, List.cons_append, List.cons.injEq] at h
          obtain ⟨rfl, rfl⟩ := ih hrest hrest' h.2
          exact ⟨by rw [Subtype.ext h.1], rfl⟩
      | element | block =>
          simpa [tokens, Heading.tokens] using congrArg kindAhead h
  | element heading more ih =>
      obtain ⟨hends, hbrace⟩ := more.endsHeading_tokens_append hrest
      cases d with
      | nil =>
          cases eq_nil_of_eq_append hrest' h.symm
      | layout =>
          simpa [tokens, Heading.tokens] using not_layout h.symm
      | text =>
          simpa [tokens, Heading.tokens] using congrArg kindAhead h
      | element heading' more' =>
          simp only [tokens, List.append_assoc] at h
          obtain ⟨rfl, heq⟩ := Heading.tokens_append_inj hends
            (more'.endsHeading_tokens_append hrest').1 h
          obtain ⟨rfl, rfl⟩ := ih hrest hrest' heq
          exact ⟨rfl, rfl⟩
      | block heading' opening' inside' closing' more' =>
          simp only [tokens, List.append_assoc, List.cons_append] at h
          obtain ⟨-, heq⟩ := Heading.tokens_append_inj hends (endsHeading_opening _) h
          simp [heq] at hbrace
  | block heading opening inside closing more ihinside ih =>
      cases d with
      | nil =>
          cases eq_nil_of_eq_append hrest' h.symm
      | layout =>
          simpa [tokens, Heading.tokens] using not_layout h.symm
      | text =>
          simpa [tokens, Heading.tokens] using congrArg kindAhead h
      | element heading' more' =>
          obtain ⟨hends, hbrace⟩ := more'.endsHeading_tokens_append hrest'
          simp only [tokens, List.append_assoc, List.cons_append] at h
          obtain ⟨-, heq⟩ := Heading.tokens_append_inj (endsHeading_opening _) hends h
          simp [← heq] at hbrace
      | block heading' opening' inside' closing' more' =>
          simp only [tokens, List.append_assoc, List.cons_append] at h
          obtain ⟨rfl, heq⟩ := Heading.tokens_append_inj (endsHeading_opening _)
            (endsHeading_opening _) h
          rw [List.cons.injEq] at heq
          obtain ⟨rfl, heq'⟩ := ihinside (endsContent_closing _) (endsContent_closing _) heq.2
          rw [List.cons.injEq] at heq'
          obtain ⟨rfl, rfl⟩ := ih hrest hrest' heq'.2
          exact ⟨by rw [Subtype.ext heq.1, Subtype.ext heq'.1], rfl⟩

/-- No token of content is the end of the input. -/
theorem kind_ne_endOfInput
    (c : Content) :
    ∀ t ∈ c.tokens, t.kind ≠ .endOfInput := by
  intro t ht
  induction c with
  | nil =>
      cases ht
  | layout token more ih =>
      rw [tokens, List.mem_cons] at ht
      obtain rfl | ht := ht
      · obtain h | h | h := token.2 <;> simp [h]
      · exact ih ht
  | text run more ih =>
      rw [tokens, List.mem_cons] at ht
      obtain rfl | ht := ht
      · simp
      · exact ih ht
  | element heading more ih =>
      rw [tokens, List.mem_append] at ht
      exact ht.elim (heading.kind_ne_endOfInput t) ih
  | block heading opening inside closing more ihinside ih =>
      rw [tokens, List.mem_append, List.mem_cons, List.mem_append, List.mem_cons] at ht
      obtain ht | rfl | ht | rfl | ht := ht
      · exact heading.kind_ne_endOfInput t ht
      · simp
      · exact ihinside ht
      · simp
      · exact ih ht

end Content

end Grammar

end BlockMarkup
