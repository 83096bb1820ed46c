import BlockMarkup.Proofs.Token.OpenList
import BlockMarkup.Proofs.Token.Orderly
import BlockMarkup.Proofs.Token.Zones

/-!
# Headers are read as they are seen

Whether an element header or a text comes next is decided by looking ahead, and both readers go over
the same characters again. Where the lookahead has seen a header, the tag with its classes and ids
is read up to the place that the lookahead has come to, and there an attribute list, a brace or the
end of the line follows (`Token.ReadsAsSeen`). Where a text run stops although the line goes on
without a brace, the main loop reads a header. So no two text runs of a line stand side by side
(`Token.RunsApart`).

The second part is about runs of the main loop: `Scanner.Reached` tells the states it comes to from
the beginning of a source, each with the tokens that have been read on the way.
-/

namespace BlockMarkup

theorem Position.line_le_after
    (p : Position)
    (cs : List Char) :
    p.line ≤ (p.after cs).line := by
  rcases eq_or_ne cs [] with rfl | hcs
  · rfl
  · have hbefore := p.before_after hcs
    unfold Before at hbefore
    omega

namespace Token

/-- Whether a class or an id can be read behind a tag. Its name is not empty, but need not be an
identifier. -/
structure Decoration.Legible (d : Decoration) : Prop where
  mark : d.mark = '.' ∨ d.mark = '#'
  nonempty : d.name.toList ≠ []
  chars : ∀ c ∈ d.name.toList, isNameChar c = true

/-- The classes and ids at a place are read one after another. -/
theorem exists_legible
    (c : Cursor) :
    ∃ ds : List Decoration, (∀ d ∈ ds, d.Legible) ∧
      c.rest = ds.flatMap Decoration.written ++ (decorations c).2.rest ∧
      (decorations c).2.position = c.position.after (ds.flatMap Decoration.written) ∧
      (decorations c).1.map bare = ds.flatMap Decoration.tokens := by
  fun_induction decorations c with
  | case1 mark first rest position hmark place name tokens stop hstop ih =>
      obtain ⟨ds, hds, hrest, hposition, htokens⟩ := ih
      simp only [hstop] at hrest hposition htokens
      simp only [Bool.and_eq_true, Bool.or_eq_true, decide_eq_true_eq] at hmark
      have hname : ∀ d ∈ name, isNameChar d = true :=
        List.forall_mem_cons.2 ⟨hmark.2, fun d hd => List.mem_takeWhile_imp hd⟩
      refine ⟨⟨mark, String.ofList name⟩ :: ds, List.forall_mem_cons.2 ⟨?_, hds⟩, ?_, ?_, ?_⟩
      · exact ⟨hmark.1, by simp [name], by simpa using hname⟩
      · rw [List.flatMap_cons, List.append_assoc, ← hrest]
        simp [Decoration.written, name, List.takeWhile_append_dropWhile]
      · rw [hposition, List.flatMap_cons, Position.after_append]
        simp [Decoration.written, place]
      · simp [htokens, Decoration.tokens, bare, single]
  | case2 mark first rest position hmark =>
      exact ⟨[], by simp⟩
  | case3 c hshort =>
      exact ⟨[], by simp⟩

/-- Whether the header at `c` is read as the lookahead has gone over it: as a tag with classes and
ids up to `stop`, which is the place that the lookahead has come to. An attribute list is read
behind that, or, after a gap, there is a brace or the line ends. -/
structure ReadsAsSeen
    (c stop : Cursor)
    (tag : String)
    (ds : List Decoration)
    (tokens : List Token) : Prop where
  isIdentifier_tag : isIdentifier tag = true
  legible : ∀ d ∈ ds, d.Legible
  spelled : tokens.map bare = (.identifier, tag) :: ds.flatMap Decoration.tokens
  seen : stop.rest = dropDecorations (c.rest.dropWhile isIdentifierChar)
  passed : c.rest = headerText tag ds ++ stop.rest
  place : stop.position = c.position.after (headerText tag ds)
  behind :
    (∃ list, stop.rest = '(' :: list ∧ attributesAhead list = true ∧
      header c = (attributeList stop.position ⟨list, stop.position.next '('⟩).map
        (withFront (tokens ++ [single .parenOpen '(' stop.position]))) ∨
    (stop.rest.dropWhile isGap).head? ∈ [some '{', some '\n', none] ∧
      header c = .ok (tokens, stop)

/-- Where the lookahead sees a header, that header is read. -/
theorem readsAsSeen_of_headerAhead
    {opensLine : Bool}
    {c : Cursor}
    (hahead : headerAhead opensLine c.rest = true) :
    ∃ tag ds, ReadsAsSeen c (tagStop c) tag ds (tagTokens c) := by
  obtain ⟨⟨first, hfirst, hletter⟩, hbehind⟩ := (headerAhead_iff opensLine c.rest).1 hahead
  obtain ⟨rest, hrest⟩ := List.head?_eq_some_iff.1 hfirst
  obtain ⟨ds, hds, hpassed, hplace, htokens⟩ := exists_legible (c.span isIdentifierChar).2
  refine ⟨String.ofList (c.span isIdentifierChar).1, ds, ?_, hds, ?_, rest_tagStop c, ?_, ?_, ?_⟩
  · simpa [Cursor.span, hrest] using isIdentifier_takeWhile hletter rest
  · simp [tagTokens, bare, htokens]
  · rw [headerText, String.toList_ofList, List.append_assoc, tagStop, ← hpassed]
    exact List.takeWhile_append_dropWhile.symm
  · rw [headerText, String.toList_ofList, Position.after_append, tagStop, hplace]
    rfl
  · simp only [← rest_tagStop] at hbehind
    rcases hbehind with ⟨list, hlist, hattributes⟩ | ⟨hparen, hends⟩
    · exact Or.inl ⟨list, hlist, hattributes, header_of_paren hlist⟩
    · refine Or.inr ⟨?_, header_of_not_paren hparen⟩
      rcases hends with hbrace | ⟨hline, -⟩
      · simp [hbrace]
      · cases hdrop : (tagStop c).rest.dropWhile isGap with
        | nil => simp
        | cons d more => simp [hline d (by rw [hdrop]; rfl)]

/-- The characters that end a text run wherever they stand, and the end of the source. -/
def runStops : List (Option Char) := [none, some '{', some '}', some '\n']

/-- What the token behind a text run is, unless the source ends there. -/
def behindRun : List TokenKind := [.braceOpen, .braceClose, .identifier, .newline]

/-- A text run that stops elsewhere stops before a header. -/
theorem head?_textSpan
    (afterBlank : Bool)
    (cs : List Char) :
    (textSpan afterBlank cs).2.head? ∈ runStops ∨
      headerAhead false (textSpan afterBlank cs).2 = true := by
  induction cs generalizing afterBlank with
  | nil =>
      exact Or.inl (by simp [textSpan, runStops])
  | cons c rest ih =>
      unfold textSpan
      split
      · next hc =>
          simp only [Bool.or_eq_true, decide_eq_true_eq] at hc
          rcases hc with (rfl | rfl) | rfl <;> exact Or.inl (by simp [runStops])
      · split
        · next hahead =>
            rw [Bool.and_eq_true] at hahead
            exact Or.inr hahead.2
        · exact ih _

/-- What headers are made of. -/
def headerKinds : List TokenKind := [.dot, .hash, .parenOpen, .parenClose] ++ listKinds

theorem ne_of_mem_headerKinds
    {kind : TokenKind}
    (hkind : kind ∈ headerKinds) :
    kind ≠ .newline ∧ kind ≠ .textRun := by
  constructor <;> rintro rfl <;> exact absurd hkind (by decide)

theorem Marks.kinds
    {tokens : List Token}
    (h : Marks tokens) :
    ∀ t ∈ tokens, t.kind ∈ headerKinds := by
  induction h with
  | nil =>
      simp
  | cons hmark hname _ ih =>
      refine List.forall_mem_cons.2 ⟨?_, List.forall_mem_cons.2 ⟨by rw [hname]; decide, ih⟩⟩
      rcases hmark with hmark | hmark <;> rw [hmark] <;> decide

theorem Closes.kinds
    {tokens : List Token}
    (h : Closes tokens) :
    ∀ t ∈ tokens, t.kind ∈ headerKinds := by
  induction h with
  | closing ht =>
      exact List.forall_mem_singleton.2 (by rw [ht]; decide)
  | item ht _ ih =>
      exact List.forall_mem_cons.2 ⟨List.mem_append_right _ ht, ih⟩

theorem Parens.kinds
    {tokens : List Token}
    (h : Parens tokens) :
    ∀ t ∈ tokens, t.kind ∈ headerKinds := by
  cases h with
  | none => simp
  | list hopening hrest => exact List.forall_mem_cons.2 ⟨by rw [hopening]; decide, hrest.kinds⟩

/-- Whether tokens come line by line, on lines from `first` to `last`, and a line break is the last
token of its line. -/
structure Lined
    (first last : Nat)
    (tokens : List Token) : Prop where
  le : first ≤ last
  bounded : ∀ t ∈ tokens, first ≤ t.position.line ∧ t.position.line ≤ last
  broken : ∀ t ∈ tokens, t.kind = .newline → t.position.line < last
  ordered : tokens.Pairwise fun t u =>
    t.position.line ≤ u.position.line ∧ (t.kind = .newline → t.position.line < u.position.line)

namespace Lined

variable {first middle last : Nat} {tokens more : List Token} {t : Token}

theorem append
    (h : Lined first middle tokens)
    (hmore : Lined middle last more) :
    Lined first last (tokens ++ more) := by
  have hle := hmore.le
  refine ⟨h.le.trans hle, ?_, ?_, List.pairwise_append.2 ⟨h.ordered, hmore.ordered, ?_⟩⟩
  · refine List.forall_mem_append.2 ⟨fun t ht => ?_, fun t ht => ?_⟩
    · exact ⟨(h.bounded t ht).1, (h.bounded t ht).2.trans hle⟩
    · exact ⟨h.le.trans (hmore.bounded t ht).1, (hmore.bounded t ht).2⟩
  · refine List.forall_mem_append.2 ⟨fun t ht hkind => ?_, hmore.broken⟩
    exact (h.broken t ht hkind).trans_le hle
  · intro t ht u hu
    have hu := (hmore.bounded u hu).1
    exact ⟨(h.bounded t ht).2.trans hu, fun hkind => (h.broken t ht hkind).trans_le hu⟩

/-- A token may be put on the line above, whatever it is. -/
theorem cons
    (hline : t.position.line = first)
    (h : Lined (first + 1) last tokens) :
    Lined first last (t :: tokens) := by
  have hbreak : Lined first (first + 1) [t] :=
    ⟨by omega, by simp [hline], by simp [hline], List.pairwise_singleton _ _⟩
  exact hbreak.append h

end Lined

theorem Passes.lined
    {inside after : Bool}
    {c stop : Cursor}
    {tokens : List Token}
    (h : Passes inside c tokens stop after)
    (hkinds : ∀ t ∈ tokens, t.kind ≠ .newline) :
    Lined c.position.line stop.position.line tokens := by
  induction h with
  | refl inside c =>
      exact ⟨le_rfl, by simp, by simp, List.Pairwise.nil⟩
  | @blank inside after c rest position tokens stop hc hrest ih =>
      have hblank : Lined position.line (position.next c).line [] :=
        ⟨position.line_le_after [c], by simp, by simp, List.Pairwise.nil⟩
      exact hblank.append (ih hkinds)
  | @token inside after piece rest position t tokens stop hspells hposition hkind hrest ih =>
      rw [List.forall_mem_cons] at hkinds
      have hle := position.line_le_after piece
      have hpiece : Lined position.line (position.after piece).line [t] :=
        ⟨hle, by simp [hposition, hle], by simp [hkinds.1], List.pairwise_singleton _ _⟩
      exact hpiece.append (ih hkinds.2)

theorem isChain_of_kinds
    {tokens : List Token}
    (hkinds : ∀ t ∈ tokens, t.kind ≠ .textRun) :
    tokens.IsChain fun t b => t.kind = .textRun → b.kind ∈ behindRun :=
  (List.pairwise_of_forall_mem_list fun t ht _ _ hkind => absurd hkind (hkinds t ht)).isChain

/-- Whether directly behind each text run, if another one follows, there is a brace or an element,
or a line break that leaves the other one on a later line. -/
def RunsApart (tokens : List Token) : Prop :=
  ∀ front t between u back, tokens = front ++ t :: (between ++ u :: back) →
    t.kind = .textRun → u.kind = .textRun →
    ∃ b ∈ between.head?, b.kind ∈ [.braceOpen, .braceClose, .identifier] ∨
      b.kind = .newline ∧ t.position.line < u.position.line

/-- Two text runs on one line have something between them. -/
theorem runsApart_of_isChain
    {first last : Nat}
    {tokens : List Token}
    (hchain : tokens.IsChain fun t b => t.kind = .textRun → b.kind ∈ behindRun)
    (hlined : Lined first last tokens) :
    RunsApart tokens := by
  rintro front t between u back rfl ht hu
  have hbehind := hchain.right_of_append.rel_head?
  have hordered := (List.pairwise_append.1 hlined.ordered).2.1
  rw [List.pairwise_cons] at hordered
  cases between with
  | nil =>
      have hkind : u.kind ∈ behindRun := hbehind rfl ht
      rw [hu] at hkind
      exact absurd hkind (by decide)
  | cons b between =>
      refine ⟨b, rfl, ?_⟩
      have hkind : b.kind ∈ behindRun := hbehind rfl ht
      by_cases hbreak : b.kind = .newline
      · have htb := (hordered.1 b (by simp)).1
        have hbu := ((List.pairwise_cons.1 hordered.2).1 u (by simp)).2 hbreak
        exact Or.inr ⟨hbreak, htb.trans_lt hbu⟩
      · exact Or.inl (by simpa [behindRun, hbreak] using hkind)

theorem RunsApart.concat
    {tokens : List Token}
    (h : RunsApart tokens)
    {last : Token}
    (hlast : last.kind ≠ .textRun) :
    RunsApart (tokens ++ [last]) := by
  intro front t between u back heq ht hu
  rcases List.eq_nil_or_concat back with rfl | ⟨back, e, rfl⟩
  · have hsplit : tokens ++ [last] = (front ++ t :: between) ++ [u] := by
      simpa using heq
    obtain rfl : last = u := by simpa using (List.append_inj' hsplit rfl).2
    exact absurd hu hlast
  · refine h front t between u back ?_ ht hu
    have hsplit : tokens ++ [last] = (front ++ t :: (between ++ u :: back)) ++ [e] := by
      simpa using heq
    exact (List.append_inj' hsplit rfl).1

end Token

namespace Scanner

open Token

/-- The states that the main loop comes to, and the tokens that it has read until then. -/
inductive Reached (source : String) : List Token → Scanner → Prop
  | start :
      Reached source (beginLine ⟨source.toList, Position.start⟩ 0).1
        (beginLine ⟨source.toList, Position.start⟩ 0).2
  | step
      {read more : List Token} {s next : Scanner} {c : Char} {rest : List Char}
      (h : Reached source read s)
      (hrest : s.cursor.rest = c :: rest)
      (hstep : s.step c rest = .ok (more, next)) :
      Reached source (read ++ more) next

/-- Whether the main loop decides to read a header. -/
def ReadsHeader (s : Scanner) : Prop :=
  ∃ c rest, s.cursor.rest = c :: rest ∧ headerAhead s.fresh (c :: rest) = true ∧
    s.step c rest =
      (Token.header s.cursor).map fun read => (read.1, ⟨read.2, s.lineWidth, false⟩)

/-- Whether the main loop reads the text run `run` and comes to the state `next`. -/
def ReadsText
    (s : Scanner)
    (run : Token)
    (next : Scanner) : Prop :=
  ∃ c rest, s.cursor.rest = c :: rest ∧ s.step c rest = .ok ([run], next) ∧ run.kind = .textRun

/-- Where the lookahead sees a header, the main loop has no other case. -/
theorem readsHeader_of_headerAhead
    {s : Scanner}
    (hahead : headerAhead s.fresh s.cursor.rest = true) :
    s.ReadsHeader := by
  obtain ⟨⟨first, hfirst, hletter⟩, -⟩ := (headerAhead_iff _ _).1 hahead
  obtain ⟨rest, hrest⟩ := List.head?_eq_some_iff.1 hfirst
  have hplain : first ∉ ['\n', ' ', '\t', '\r', '{', '}'] := by
    intro hmem
    rw [eq_false_of_mem (p := isAsciiLetter) (by decide) hmem] at hletter
    cases hletter
  simp only [List.mem_cons, List.not_mem_nil, or_false, not_or] at hplain
  obtain ⟨hline, hspace, htab, hreturn, hopen, hclose⟩ := hplain
  rw [hrest] at hahead
  refine ⟨first, rest, hrest, hahead, ?_⟩
  have hgap : isGap first = false := by simp [isGap, hspace, htab, hreturn]
  have hcursor : s.cursor = ⟨first :: rest, s.cursor.position⟩ := by rw [← hrest]
  simp only [step, hline, hgap, hopen, hclose, hahead, if_true, if_false, Bool.false_eq_true]
  rw [← hcursor]

/-- Whether no text run goes on from a state: the line or the source ends there, or a brace or a
header comes next. -/
def RunEnds (s : Scanner) : Prop := s.cursor.rest.head? ∈ runStops ∨ s.ReadsHeader

/-- A text run is read as far as it goes, so that no other one follows at once. -/
theorem runEnds_textRun
    (c : Cursor)
    (lineWidth : Nat) :
    RunEnds ⟨(textRun c).2, lineWidth, false⟩ :=
  (head?_textSpan false c.rest).imp id readsHeader_of_headerAhead

/-- The margin of a line is neither a line break nor a text run. -/
theorem ne_of_mem_beginLine
    {c : Cursor}
    {lineWidth : Nat} :
    ∀ t ∈ (beginLine c lineWidth).1, t.kind ≠ .newline ∧ t.kind ≠ .textRun := by
  unfold beginLine
  simp only
  split_ifs <;> simp

section Step

variable {source : List Char} {s next : Scanner} {c : Char} {rest : List Char} {read : List Token}

/-- The tag comes first of a header. -/
theorem kinds_header
    {opensLine : Bool}
    {stop : Cursor}
    (h : s.cursor.In source)
    (hrest : s.cursor.rest = c :: rest)
    (hahead : headerAhead opensLine (c :: rest) = true)
    (hread : Token.header ⟨c :: rest, s.cursor.position⟩ = .ok (read, stop)) :
    (∃ tag ∈ read.head?, tag.kind = .identifier) ∧ ∀ t ∈ read, t.kind ∈ headerKinds := by
  have hc : Cursor.In ⟨c :: rest, s.cursor.position⟩ source := by
    rw [← hrest]
    exact h
  obtain ⟨⟨tag, marks, list, rfl, htag, hmarks, hlist⟩, -⟩ :=
    header_scanned hread (isIdentifierChar_of_headerAhead hahead) hc
  refine ⟨⟨tag, rfl, htag⟩, List.forall_mem_cons.2 ⟨by rw [htag]; decide, ?_⟩⟩
  exact List.forall_mem_append.2 ⟨hmarks.kinds, hlist.kinds⟩

/-- A step reads one text run and leaves the scanner where no other can begin, or it reads none. -/
theorem step_textRun
    (h : s.cursor.In source)
    (hrest : s.cursor.rest = c :: rest)
    (hstep : s.step c rest = .ok (read, next)) :
    (∃ run, read = [run] ∧ run.kind = .textRun ∧ next.RunEnds) ∨ ∀ t ∈ read, t.kind ≠ .textRun := by
  cases steps_of_step hstep with
  | newline hline =>
      exact Or.inr (List.forall_mem_cons.2
        ⟨by simp [single], fun t ht => (ne_of_mem_beginLine t ht).2⟩)
  | gap hgap =>
      exact Or.inr (by simp)
  | braceOpen hbrace =>
      exact Or.inr (by simp [single])
  | braceClose hbrace =>
      exact Or.inr (by simp [single])
  | header hgap hmark hahead hread =>
      have hkinds := (kinds_header h hrest hahead hread).2
      exact Or.inr fun t ht => (ne_of_mem_headerKinds (hkinds t ht)).2
  | text hgap hmark hahead =>
      exact Or.inl ⟨_, rfl, rfl, runEnds_textRun _ _⟩

/-- Where no text run goes on, the next step reads a brace, a header or a line break. -/
theorem step_of_runEnds
    (hends : s.RunEnds)
    (h : s.cursor.In source)
    (hrest : s.cursor.rest = c :: rest)
    (hstep : s.step c rest = .ok (read, next)) :
    ∃ b ∈ read.head?, b.kind ∈ behindRun := by
  rcases hends with hstop | ⟨first, more, hfirst, hahead, hheader⟩
  · have hc : c = '{' ∨ c = '}' ∨ c = '\n' := by simpa [hrest, runStops] using hstop
    cases steps_of_step hstep with
    | newline hline => exact ⟨_, rfl, by simp [single, behindRun]⟩
    | gap hgap => rcases hc with rfl | rfl | rfl <;> cases hgap
    | braceOpen hbrace => exact ⟨_, rfl, by simp [single, behindRun]⟩
    | braceClose hbrace => exact ⟨_, rfl, by simp [single, behindRun]⟩
    | header hgap hmark | text hgap hmark => simp_all
  · obtain ⟨rfl, rfl⟩ : first = c ∧ more = rest := by simpa [hrest, eq_comm] using hfirst
    rw [hheader] at hstep
    cases hread : Token.header s.cursor with
    | error e =>
        simp [hread, Except.map] at hstep
    | ok found =>
        simp only [hread, Except.map, Except.ok.injEq, Prod.mk.injEq] at hstep
        obtain ⟨rfl, -⟩ := hstep
        have hcursor : s.cursor = ⟨first :: more, s.cursor.position⟩ := by rw [← hrest]
        rw [hcursor] at hread
        obtain ⟨⟨tag, htag, hkind⟩, -⟩ := kinds_header h hrest hahead hread
        exact ⟨tag, htag, by simp [hkind, behindRun]⟩

/-- A step goes on from the line it begins on, and to a later one if it reads a line break. -/
theorem step_lined
    (h : s.cursor.In source)
    (hrest : s.cursor.rest = c :: rest)
    (hstep : s.step c rest = .ok (read, next)) :
    Lined s.cursor.position.line next.cursor.position.line read := by
  have hpasses := step_passes hrest hstep
  cases steps_of_step hstep with
  | newline hline =>
      subst hline
      have hmargin := (beginLine_passes ⟨rest, s.cursor.position.next '\n'⟩ s.lineWidth).lined
        fun t ht => (ne_of_mem_beginLine t ht).1
      exact Lined.cons rfl hmargin
  | gap hgap =>
      exact hpasses.lined (by simp)
  | braceOpen hbrace =>
      exact hpasses.lined (by simp [single])
  | braceClose hbrace =>
      exact hpasses.lined (by simp [single])
  | header hgap hmark hahead hread =>
      have hkinds := (kinds_header h hrest hahead hread).2
      exact hpasses.lined fun t ht => (ne_of_mem_headerKinds (hkinds t ht)).1
  | text hgap hmark hahead =>
      exact hpasses.lined (by simp [textRun])

end Step

namespace Reached

variable {source : String} {read : List Token} {s : Scanner}

theorem cursor_in
    (h : Reached source read s) :
    s.cursor.In source.toList := by
  induction h with
  | start =>
      exact (beginLine_sound ⟨[], rfl, rfl⟩ 0).1
  | step _ hrest hstep ih =>
      exact (step_sound hrest hstep ih).1

theorem lined
    (h : Reached source read s) :
    Lined 1 s.cursor.position.line read := by
  induction h with
  | start =>
      exact (beginLine_passes ⟨source.toList, Position.start⟩ 0).lined
        fun t ht => (ne_of_mem_beginLine t ht).1
  | step h hrest hstep ih =>
      exact ih.append (step_lined h.cursor_in hrest hstep)

/-- Behind a text run comes a brace, a header or a line break. A step keeps this, because no text
run goes on where the last one has stopped. -/
theorem isChain
    (h : Reached source read s) :
    read.IsChain (fun t b => t.kind = .textRun → b.kind ∈ behindRun) ∧
      ∀ t ∈ read.getLast?, t.kind = .textRun → s.RunEnds := by
  induction h with
  | start =>
      have hkinds : ∀ t ∈ (beginLine ⟨source.toList, Position.start⟩ 0).1, t.kind ≠ .textRun :=
        fun t ht => (ne_of_mem_beginLine t ht).2
      exact ⟨isChain_of_kinds hkinds,
        fun t ht hkind => absurd hkind (hkinds t (List.mem_of_getLast? ht))⟩
  | @step read more s next c rest h hrest hstep ih =>
      have hbehind : ∀ t ∈ read.getLast?, t.kind = .textRun →
          ∃ b ∈ more.head?, b.kind ∈ behindRun := fun t ht hkind =>
        step_of_runEnds (ih.2 t ht hkind) h.cursor_in hrest hstep
      have hmore := step_textRun h.cursor_in hrest hstep
      refine ⟨ih.1.append ?_ fun t ht b hb hkind => ?_, fun t ht hkind => ?_⟩
      · rcases hmore with ⟨run, rfl, -, -⟩ | hkinds
        · exact List.isChain_singleton run
        · exact isChain_of_kinds hkinds
      · obtain ⟨b', hb', hkind'⟩ := hbehind t ht hkind
        exact Option.mem_unique hb hb' ▸ hkind'
      · rcases hmore with ⟨run, rfl, -, hends⟩ | hkinds
        · exact hends
        · -- the last token is not one of `more`, so that `more` would be empty
          rw [List.getLast?_append, Option.mem_def, Option.or_eq_some_iff] at ht
          rcases ht with ht | ⟨hempty, ht⟩
          · exact absurd hkind (hkinds t (List.mem_of_getLast? ht))
          · obtain ⟨b, hb, -⟩ := hbehind t ht hkind
            rw [List.getLast?_eq_none_iff.1 hempty] at hb
            cases hb

/-- Along every run of the scanner, no two text runs meet on one line. -/
theorem runsApart
    (h : Reached source read s) :
    RunsApart read :=
  runsApart_of_isChain h.isChain.1 h.lined

theorem of_tokens
    {tokens : List Token}
    (h : Reached source read s)
    (htokens : s.tokens = .ok tokens) :
    ∃ more last, Reached source (read ++ more) last ∧
      tokens = more ++ [⟨.endOfInput, "", last.cursor.position⟩] := by
  fun_induction Scanner.tokens s generalizing read tokens with
  | case1 s hrest =>
      simp only [Except.ok.injEq] at htokens
      exact ⟨[], s, by rwa [List.append_nil], htokens.symm⟩
  | case2 s c rest hrest e hstep =>
      cases htokens
  | case3 s c rest hrest found next hstep ih =>
      cases hlater : next.tokens with
      | error e =>
          simp [hlater, Except.map] at htokens
      | ok later =>
          simp only [hlater, Except.map, Except.ok.injEq] at htokens
          obtain ⟨more, last, hreached, rfl⟩ := ih (h.step hrest hstep) hlater
          refine ⟨found ++ more, last, by rwa [← List.append_assoc], ?_⟩
          rw [← htokens, List.append_assoc]

end Reached

end Scanner

namespace Token

/-- The tokens of a source are those that the main loop has read when it comes to the end, and the
end of input. -/
theorem exists_reached_of_scan
    {source : String}
    {tokens : List Token}
    (hscan : scan source = .ok tokens) :
    ∃ read last, Scanner.Reached source read last ∧
      tokens = read ++ [⟨.endOfInput, "", last.cursor.position⟩] := by
  unfold scan at hscan
  simp only at hscan
  cases htokens : (Scanner.beginLine ⟨source.toList, Position.start⟩ 0).2.tokens with
  | error e =>
      simp [htokens, Except.map] at hscan
  | ok later =>
      simp only [htokens, Except.map, Except.ok.injEq] at hscan
      obtain ⟨more, last, hreached, rfl⟩ := Scanner.Reached.start.of_tokens htokens
      exact ⟨_, last, hreached, by rw [← hscan, List.append_assoc]⟩

/-- In every state that the scanner comes to, lookahead and reading agree. Wherever the lookahead
sees a header in what is left of the source, whether it is asked at the beginning of a line or not,
that header is read as a tag with its classes and ids up to where the lookahead has gone, and an
attribute list, a brace or the end of the line comes next. If the main loop asks, it reads that
header. If a text run stops although neither a brace nor the line's end follows, a header is read
next. So two text runs of a line never stand side by side, neither among the tokens that have been
read so far nor among all tokens of a source. -/
theorem scan_reads_headers_as_seen
    (source : String) :
    (∀ read s, Scanner.Reached source read s →
      (∀ passed rest opensLine, s.cursor.rest = passed ++ rest →
        headerAhead opensLine rest = true →
        ∃ stop tag ds tokens,
          ReadsAsSeen ⟨rest, s.cursor.position.after passed⟩ stop tag ds tokens) ∧
      (headerAhead s.fresh s.cursor.rest = true → s.ReadsHeader) ∧
      (∀ run next, s.ReadsText run next →
        next.cursor.rest.head? ∈ runStops ∨ next.ReadsHeader) ∧
      RunsApart read) ∧
    ∀ tokens, scan source = .ok tokens → RunsApart tokens := by
  refine ⟨fun read s h => ⟨?_, Scanner.readsHeader_of_headerAhead, ?_, h.runsApart⟩, ?_⟩
  · intro passed rest opensLine _ hahead
    obtain ⟨tag, ds, hreads⟩ :=
      readsAsSeen_of_headerAhead (c := ⟨rest, s.cursor.position.after passed⟩) hahead
    exact ⟨_, tag, ds, _, hreads⟩
  · rintro run next ⟨c, rest, hrest, hstep, hkind⟩
    rcases Scanner.step_textRun h.cursor_in hrest hstep with ⟨-, -, -, hends⟩ | hkinds
    · exact hends
    · exact absurd hkind (hkinds run List.mem_cons_self)
  · intro tokens hscan
    obtain ⟨read, last, hreached, rfl⟩ := exists_reached_of_scan hscan
    exact hreached.runsApart.concat (by simp)

/-- A line with an element between two texts. -/
def mixedLine : String := "go on p.a#b(x: 'y') and p \x7b"

/-- The scanner at its beginning. -/
def beforeFirstText : Scanner := ⟨⟨mixedLine.toList, ⟨1, 1⟩⟩, 0, true⟩

/-- The scanner behind the first text. -/
def behindFirstText : Scanner := ⟨⟨mixedLine.toList.drop 6, ⟨1, 7⟩⟩, 0, false⟩

theorem scan_reads_headers_as_seen_mixedLine :
    ∃ read run, Scanner.Reached mixedLine read beforeFirstText ∧
      beforeFirstText.ReadsText run behindFirstText ∧ run.text = "go on" ∧
      behindFirstText.ReadsHeader ∧
      (∃ stop tag ds tokens, ReadsAsSeen behindFirstText.cursor stop tag ds tokens) ∧
      ∃ tokens, scan mixedLine = .ok tokens ∧
        (tokens.filter (·.kind = .textRun)).map (·.text) = ["go on", "and"] ∧
        RunsApart tokens := by
  have hstart : Scanner.Reached mixedLine [] beforeFirstText := by
    have hline : Scanner.beginLine ⟨mixedLine.toList, Position.start⟩ 0 =
        ([], beforeFirstText) := by decide +kernel
    have hreached : Scanner.Reached mixedLine
        (Scanner.beginLine ⟨mixedLine.toList, Position.start⟩ 0).1
        (Scanner.beginLine ⟨mixedLine.toList, Position.start⟩ 0).2 := .start
    rwa [hline] at hreached
  have hrest : beforeFirstText.cursor.rest = 'g' :: mixedLine.toList.drop 1 := by decide +kernel
  have hstep : beforeFirstText.step 'g' (mixedLine.toList.drop 1) =
      .ok ([⟨.textRun, "go on", ⟨1, 1⟩⟩], behindFirstText) := by decide +kernel
  have htext : beforeFirstText.ReadsText ⟨.textRun, "go on", ⟨1, 1⟩⟩ behindFirstText :=
    ⟨'g', _, hrest, hstep, rfl⟩
  have htexts : (scan mixedLine).toOption.map (fun tokens =>
      (tokens.filter (·.kind = .textRun)).map (·.text)) = some ["go on", "and"] := by
    decide +kernel
  obtain ⟨hstates, hscan⟩ := scan_reads_headers_as_seen mixedLine
  have hheader : behindFirstText.ReadsHeader :=
    ((hstates _ _ hstart).2.2.1 _ _ htext).resolve_left (by decide +kernel)
  have hseen := (hstates _ _ (hstart.step hrest hstep)).1 [] behindFirstText.cursor.rest false rfl
    (by decide +kernel)
  refine ⟨_, _, hstart, htext, rfl, hheader, hseen, ?_⟩
  cases htokens : scan mixedLine with
  | error e =>
      simp [htokens, Except.toOption] at htexts
  | ok tokens =>
      exact ⟨tokens, rfl, by simpa [htokens, Except.toOption] using htexts, hscan tokens htokens⟩

end Token

end BlockMarkup
