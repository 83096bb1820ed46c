import BlockMarkup.Token.Scan
import Mathlib.Data.List.TakeWhile
import Mathlib.Tactic

/-!
# Scanning a written line

A line is written as a margin of blanks, then a tag with its classes and its id, a text or a
brace. Here every such piece is scanned in front of whatever the line goes on with: the lookahead
decides for the piece that was written, the tokens are those of the piece, and the scanner stops
behind it.
-/

namespace BlockMarkup

/-- An identifier has a first letter. -/
theorem exists_of_isIdentifier
    {name : String}
    (hname : isIdentifier name = true) :
    ∃ first rest, name.toList = first :: rest ∧ isAsciiLetter first = true ∧
      ∀ c ∈ name.toList, isIdentifierChar c = true := by
  unfold isIdentifier at hname
  cases hlist : name.toList with
  | nil =>
      simp [hlist, isIdentifierChars] at hname
  | cons first rest =>
      simp only [hlist, isIdentifierChars, Bool.and_eq_true, List.all_eq_true] at hname
      refine ⟨first, rest, rfl, hname.1, fun c hc => ?_⟩
      rcases List.mem_cons.1 hc with rfl | hc
      · simp [isIdentifierChar, isAsciiAlphanumeric, hname.1]
      · exact hname.2 c hc

/-- The names of standard elements are identifiers. -/
theorem isIdentifier_of_isStandardElement
    {tag : String}
    (htag : isStandardElement tag = true) :
    isIdentifier tag = true := by
  have hall : standardElements.all isIdentifier = true := by decide +kernel
  exact List.all_eq_true.1 hall tag (by simpa [isStandardElement] using htag)

theorem toNat_of_isIdentifierChar
    {c : Char}
    (hc : isIdentifierChar c = true) :
    c.toNat = 45 ∨ (48 ≤ c.toNat ∧ c.toNat ≤ 57) ∨ (65 ≤ c.toNat ∧ c.toNat ≤ 90) ∨
      c.toNat = 95 ∨ (97 ≤ c.toNat ∧ c.toNat ≤ 122) := by
  simp only [isIdentifierChar, isAsciiAlphanumeric, isAsciiLetter, isAsciiDigit, Bool.or_eq_true,
    Bool.and_eq_true, decide_eq_true_eq, Char.le_def, UInt32.le_iff_toNat_le] at hc
  rcases hc with (((hc | hc) | hc) | rfl) | rfl
  · exact Or.inr (Or.inr (Or.inr (Or.inr hc)))
  · exact Or.inr (Or.inr (Or.inl hc))
  · exact Or.inr (Or.inl hc)
  · decide
  · decide

theorem isBlank_of_isIdentifierChar
    {c : Char}
    (hc : isIdentifierChar c = true) :
    Text.isBlank c = false := by
  have hrange := toNat_of_isIdentifierChar hc
  simp only [Text.isBlank, Bool.or_eq_false_iff, Bool.and_eq_false_iff, decide_eq_false_iff_not]
  omega

theorem eq_false_of_mem
    {p : Char → Bool}
    {cs : List Char}
    (hcs : cs.all (fun d => !p d) = true)
    {c : Char}
    (hc : c ∈ cs) :
    p c = false := by
  simpa using List.all_eq_true.1 hcs c hc

theorem takeWhile_append_eq_left
    {α : Type}
    {p : α → Bool}
    {as rest : List α}
    (has : ∀ a ∈ as, p a = true)
    (hrest : ∀ a ∈ rest.head?, p a = false) :
    (as ++ rest).takeWhile p = as := by
  rw [List.takeWhile_append_of_pos has]
  cases rest with
  | nil =>
      simp
  | cons a rest =>
      simp [hrest a rfl]

theorem dropWhile_append_eq_right
    {α : Type}
    {p : α → Bool}
    {as rest : List α}
    (has : ∀ a ∈ as, p a = true)
    (hrest : ∀ a ∈ rest.head?, p a = false) :
    (as ++ rest).dropWhile p = rest := by
  rw [List.dropWhile_append_of_pos has]
  cases rest with
  | nil =>
      rfl
  | cons a rest =>
      simp [hrest a rfl]

namespace Token

/-- What a token says, whatever its place. -/
def bare (t : Token) : TokenKind × String := (t.kind, t.text)

/-- A class or an id behind a tag: its mark and its name. -/
structure Decoration where
  mark : Char
  name : String

namespace Decoration

def written (d : Decoration) : List Char := d.mark :: d.name.toList

def tokens (d : Decoration) : List (TokenKind × String) :=
  [(if d.mark = '.' then .dot else .hash, String.ofList [d.mark]), (.identifier, d.name)]

/-- Whether a decoration is a class or an id that is an identifier. -/
structure Proper (d : Decoration) : Prop where
  mark : d.mark = '.' ∨ d.mark = '#'
  name : isIdentifier d.name = true

end Decoration

/-- Whether a header ends before `rest`: the line ends, or a blank follows. -/
def HeaderEnds (rest : List Char) : Prop := ∀ c ∈ rest.head?, c = ' ' ∨ c = '\n'

/-- Whether a line ends before `rest`. -/
def LineEnds (rest : List Char) : Prop := ∀ c ∈ rest.head?, c = '\n'

theorem headerEnds_of_lineEnds
    {rest : List Char}
    (hrest : LineEnds rest ∨ ∃ more, rest = ' ' :: '{' :: more) :
    HeaderEnds rest := by
  rcases hrest with h | ⟨more, rfl⟩
  · exact fun c hc => Or.inr (h c hc)
  · exact fun c hc => Or.inl (by simpa [eq_comm] using hc)

theorem isNameChar_of_isIdentifierChar
    {c : Char}
    (hc : isIdentifierChar c = true) :
    isNameChar c = true := by
  have hends : c ∉ nameEnds := by
    intro hmem
    have hnone : isIdentifierChar c = false := eq_false_of_mem (by decide) hmem
    simp [hnone] at hc
  simp [isNameChar, isBlank_of_isIdentifierChar hc, hends]

/-- Where decorations are read, the lookahead has skipped them. -/
theorem rest_decorations
    (c : Cursor) :
    (decorations c).2.rest = dropDecorations c.rest := by
  fun_induction decorations c with
  | case1 mark first rest position hmark place name tokens stop hstop ih =>
      rw [hstop] at ih
      rw [dropDecorations, if_pos hmark]
      exact ih
  | case2 mark first rest position hmark =>
      rw [dropDecorations, if_neg hmark]
  | case3 c hshort =>
      rw [dropDecorations]
      intro mark first rest hrest
      exact hshort mark first rest c.position (by rw [← hrest])

theorem decorations_of_headerEnds
    {rest : List Char}
    (hrest : HeaderEnds rest)
    (position : Position) :
    decorations ⟨rest, position⟩ = ([], ⟨rest, position⟩) := by
  unfold decorations
  split
  · next mark first more place heq =>
      injection heq with hlist
      rcases hrest mark (by rw [hlist]; rfl) with rfl | rfl <;> simp_all
  · rfl

/-- A name in a header ends before a mark, a blank or the end of the line. -/
theorem head_decorations
    {ds : List Decoration}
    (hds : ∀ d ∈ ds, d.Proper)
    {rest : List Char}
    (hrest : HeaderEnds rest) :
    ∀ c ∈ (ds.flatMap Decoration.written ++ rest).head?, c ∈ ['.', '#', ' ', '\n'] := by
  intro c hc
  cases ds with
  | nil =>
      rcases hrest c (by simpa using hc) with rfl | rfl <;> simp
  | cons d ds =>
      have hmark : c = d.mark := by simpa [Decoration.written, eq_comm] using hc
      rcases (hds d List.mem_cons_self).mark with h | h <;> simp [hmark, h]

/-- Written decorations are read as themselves. -/
theorem decorations_written
    {ds : List Decoration}
    (hds : ∀ d ∈ ds, d.Proper)
    {rest : List Char}
    (hrest : HeaderEnds rest)
    (position : Position) :
    ∃ tokens, decorations ⟨ds.flatMap Decoration.written ++ rest, position⟩ =
        (tokens, ⟨rest, position.after (ds.flatMap Decoration.written)⟩) ∧
      tokens.map bare = ds.flatMap Decoration.tokens := by
  induction ds generalizing position with
  | nil =>
      exact ⟨[], decorations_of_headerEnds hrest position, rfl⟩
  | cons d ds ih =>
      have hproper := hds d List.mem_cons_self
      have hds' : ∀ d ∈ ds, d.Proper := fun e he => hds e (List.mem_cons_of_mem d he)
      obtain ⟨first, more, hname, -, hchars⟩ := exists_of_isIdentifier hproper.name
      have hall : ∀ c ∈ first :: more, isNameChar c = true := fun c hc =>
        isNameChar_of_isIdentifierChar (hchars c (hname ▸ hc))
      have hstop : ∀ c ∈ (ds.flatMap Decoration.written ++ rest).head?, isNameChar c = false := by
        intro c hc
        exact eq_false_of_mem (by decide) (head_decorations hds' hrest c hc)
      have hmore : ∀ c ∈ more, isNameChar c = true := fun c hc => hall c (List.mem_cons_of_mem _ hc)
      have hmark : ((d.mark = '.' || d.mark = '#') && isNameChar first) = true := by
        rcases hproper.mark with h | h <;> simp [h, hall first List.mem_cons_self]
      obtain ⟨tokens, hread, htokens⟩ :=
        ih hds' ((position.next d.mark).after (first :: more))
      refine ⟨single (if d.mark = '.' then .dot else .hash) d.mark position ::
        ⟨.identifier, String.ofList (first :: more), position.next d.mark⟩ :: tokens, ?_, ?_⟩
      · rw [List.flatMap_cons, Decoration.written, hname, List.cons_append, List.cons_append,
          List.cons_append, List.cons_append, List.append_assoc, decorations, if_pos hmark]
        simp only [takeWhile_append_eq_left hmore hstop, dropWhile_append_eq_right hmore hstop,
          hread]
        simp
      · simp [bare, single, htokens, Decoration.tokens, ← hname]

/-- How a header without attributes is written. -/
def headerText
    (tag : String)
    (ds : List Decoration) : List Char :=
  tag.toList ++ ds.flatMap Decoration.written

/-- What the lookahead asks for: a letter, and behind the tag and its decorations an attribute
list, an opening brace, or, at the beginning of a line, the end of that line. -/
theorem headerAhead_iff
    (opensLine : Bool)
    (cs : List Char) :
    headerAhead opensLine cs = true ↔
      (∃ first ∈ cs.head?, isAsciiLetter first = true) ∧
        let decorations := cs.dropWhile isIdentifierChar
        let rest := dropDecorations decorations
        (∃ list, rest = '(' :: list ∧ attributesAhead list = true) ∨
          rest.head? ≠ some '(' ∧
            ((rest.dropWhile isGap).head? = some '{' ∨
              LineEnds (rest.dropWhile isGap) ∧ opensLine = true ∧
                (rest.length < decorations.length ∨
                  isStandardElement (String.ofList (cs.takeWhile isIdentifierChar)) = true)) := by
  cases cs with
  | nil =>
      simp [headerAhead]
  | cons first tail =>
      simp only [headerAhead, Bool.and_eq_true, List.head?_cons, Option.mem_def,
        Option.some.injEq, exists_eq_left']
      refine and_congr_right fun _ => ?_
      generalize dropDecorations ((first :: tail).dropWhile isIdentifierChar) = rest
      split
      · simp
      · next hparen =>
          have hhead : rest.head? ≠ some '(' := by
            intro hsome
            obtain ⟨list, rfl⟩ := List.head?_eq_some_iff.1 hsome
            exact hparen list rfl
          have hnone : ¬∃ list, rest = '(' :: list ∧ attributesAhead list = true := by
            rintro ⟨list, hlist, -⟩
            exact hparen list hlist
          split
          · next hgap => simp [hnone, hhead, hgap]
          · next hgap => simp [hnone, hhead, hgap, LineEnds]
          · next hgap => simp [hnone, hhead, hgap, LineEnds]
          · next hbrace hnil hline =>
              cases hdrop : rest.dropWhile isGap with
              | nil => exact absurd hdrop hnil
              | cons c more =>
                  have hc : c ≠ '{' ∧ c ≠ '\n' :=
                    ⟨fun h => hbrace more (h ▸ hdrop), fun h => hline more (h ▸ hdrop)⟩
                  simp [hnone, hc.1, hc.2, LineEnds]

section Header

variable {tag : String} {ds : List Decoration} {rest : List Char}

theorem span_headerText
    (htag : isIdentifier tag = true)
    (hds : ∀ d ∈ ds, d.Proper)
    (hrest : HeaderEnds rest) :
    (headerText tag ds ++ rest).takeWhile isIdentifierChar = tag.toList ∧
      (headerText tag ds ++ rest).dropWhile isIdentifierChar =
        ds.flatMap Decoration.written ++ rest := by
  obtain ⟨-, -, -, -, hchars⟩ := exists_of_isIdentifier htag
  have hstop : ∀ c ∈ (ds.flatMap Decoration.written ++ rest).head?,
      isIdentifierChar c = false := by
    intro c hc
    exact eq_false_of_mem (by decide) (head_decorations hds hrest c hc)
  rw [headerText, List.append_assoc]
  exact ⟨takeWhile_append_eq_left hchars hstop, dropWhile_append_eq_right hchars hstop⟩

/-- A written header is read as itself. -/
theorem header_written
    (htag : isIdentifier tag = true)
    (hds : ∀ d ∈ ds, d.Proper)
    (hrest : HeaderEnds rest)
    (position : Position) :
    ∃ tokens, header ⟨headerText tag ds ++ rest, position⟩ =
        .ok (tokens, ⟨rest, position.after (headerText tag ds)⟩) ∧
      tokens.map bare = (.identifier, tag) :: ds.flatMap Decoration.tokens := by
  obtain ⟨htake, hdrop⟩ := span_headerText htag hds hrest
  obtain ⟨tokens, hread, htokens⟩ := decorations_written hds hrest (position.after tag.toList)
  refine ⟨⟨.identifier, String.ofList tag.toList, position⟩ :: tokens, ?_, ?_⟩
  · simp only [header, Cursor.span, htake, hdrop, hread]
    split
    · next list opened heq =>
        injection heq with hlist
        rcases hrest '(' (by rw [hlist]; rfl) with h | h <;> simp at h
    · simp [headerText]
  · simp [bare, htokens]

/-- A written header is seen as one if its line ends there or its block is opened. -/
theorem headerAhead_written
    (htag : isStandardElement tag = true)
    (hds : ∀ d ∈ ds, d.Proper)
    (hrest : LineEnds rest ∨ ∃ more, rest = ' ' :: '{' :: more) :
    headerAhead true (headerText tag ds ++ rest) = true := by
  have hends := headerEnds_of_lineEnds hrest
  have hident := isIdentifier_of_isStandardElement htag
  obtain ⟨first, more, htext, hletter, -⟩ := exists_of_isIdentifier hident
  obtain ⟨htake, hdrop⟩ := span_headerText hident hds hends
  obtain ⟨tokens, hread, -⟩ := decorations_written hds hends Position.start
  have hskip : dropDecorations (ds.flatMap Decoration.written ++ rest) = rest := by
    rw [← rest_decorations ⟨_, Position.start⟩, hread]
  rw [headerAhead_iff]
  simp only [htake, hdrop, hskip]
  refine ⟨⟨first, by simp [headerText, htext], hletter⟩, Or.inr ⟨?_, ?_⟩⟩
  · intro hparen
    rcases hends '(' hparen with h | h <;> simp at h
  · rcases hrest with h | ⟨more, rfl⟩
    · have hgap : rest.dropWhile isGap = rest :=
        dropWhile_append_eq_right (List.forall_mem_nil _) fun c hc => by rw [h c hc]; rfl
      rw [hgap]
      exact Or.inr ⟨h, trivial, Or.inr (by simpa using htag)⟩
    · exact Or.inl rfl

end Header

/-- Whether a text can be written on a line of its own: it begins and ends with characters other
than white space, has no mark of a header or a block, and is not an element name. -/
@[mk_iff]
structure PlainText (cs : List Char) : Prop where
  nonempty : cs ≠ []
  first : ∀ c ∈ cs.head?, Text.isBlank c = false
  last : ∀ c ∈ cs.getLast?, Text.isBlank c = false
  marks : ∀ c ∈ cs, c ∉ ['.', '#', '(', '{', '}', '\n']
  word : isStandardElement (String.ofList cs) = false

theorem plainText_iff_all
    (cs : List Char) :
    PlainText cs ↔ cs ≠ [] ∧ (cs.head?.all fun c => !Text.isBlank c) = true ∧
      (cs.getLast?.all fun c => !Text.isBlank c) = true ∧
      (cs.all fun c => decide (c ∉ ['.', '#', '(', '{', '}', '\n'])) = true ∧
      isStandardElement (String.ofList cs) = false := by
  simp only [plainText_iff, Option.all_eq_true, Option.mem_def, List.all_eq_true,
    Bool.not_eq_true', decide_eq_true_eq]

instance (cs : List Char) : Decidable (PlainText cs) :=
  decidable_of_iff' _ (plainText_iff_all cs)

section Text

variable {cs rest : List Char}

theorem isBlank_of_isGap
    {c : Char}
    (hc : isGap c = true) :
    Text.isBlank c = true := by
  simp only [isGap, Bool.or_eq_true, decide_eq_true_eq] at hc
  rcases hc with (rfl | rfl) | rfl <;> decide

/-- No end of a text is made of gaps only, if the text does not end with a blank. -/
theorem dropWhile_isGap_ne_nil
    (hlast : ∀ c ∈ cs.getLast?, Text.isBlank c = false)
    {more : List Char}
    (hsuffix : more <:+ cs)
    (hmore : more ≠ []) :
    more.dropWhile isGap ≠ [] := by
  intro hnil
  obtain ⟨start, rfl⟩ := hsuffix
  have hblank := isBlank_of_isGap (List.dropWhile_eq_nil_iff.1 hnil _ (List.getLast_mem hmore))
  have hsome : (start ++ more).getLast? = some (more.getLast hmore) := by
    rw [List.getLast?_append, List.getLast?_eq_some_getLast hmore]
    rfl
  simp [hlast _ hsome] at hblank

/-- In a text without marks only an element name at the beginning of a line looks like a header. -/
theorem headerAhead_text
    {opensLine : Bool}
    (hlast : ∀ c ∈ cs.getLast?, Text.isBlank c = false)
    (hmarks : ∀ c ∈ cs, c ∉ ['.', '#', '(', '{', '}', '\n'])
    (hrest : LineEnds rest)
    (hahead : headerAhead opensLine (cs ++ rest) = true) :
    opensLine = true ∧ isStandardElement (String.ofList cs) = true := by
  rw [headerAhead_iff] at hahead
  obtain ⟨-, hahead⟩ := hahead
  by_cases hword : cs.dropWhile isIdentifierChar = []
  · -- the whole text is one word, so what follows the tag is the end of the line
    have hchars := List.dropWhile_eq_nil_iff.1 hword
    have hstop : ∀ c ∈ rest.head?, isIdentifierChar c = false := fun c hc => by rw [hrest c hc]; rfl
    have hgap : rest.dropWhile isGap = rest :=
      dropWhile_append_eq_right (List.forall_mem_nil _) fun c hc => by rw [hrest c hc]; rfl
    have hskip : dropDecorations rest = rest := by
      have hends : HeaderEnds rest := fun c hc => Or.inr (hrest c hc)
      rw [← rest_decorations ⟨_, Position.start⟩, decorations_of_headerEnds hends]
    rw [takeWhile_append_eq_left hchars hstop, dropWhile_append_eq_right hchars hstop] at hahead
    simp only [hskip, hgap, lt_irrefl, false_or] at hahead
    rcases hahead with ⟨list, rfl, -⟩ | ⟨-, hbrace | hline⟩
    · simpa using hrest '(' rfl
    · simpa using hrest '{' hbrace
    · exact hline.2
  · -- behind the first word stands no mark, and more than blanks
    exfalso
    obtain ⟨c, more, hdrop⟩ := List.exists_cons_of_ne_nil hword
    have hsuffix : c :: more <:+ cs := hdrop ▸ List.dropWhile_suffix isIdentifierChar
    have hc := hmarks c (hsuffix.subset List.mem_cons_self)
    simp only [List.mem_cons, not_or] at hc
    have hskip : dropDecorations (c :: (more ++ rest)) = c :: (more ++ rest) := by
      unfold dropDecorations
      split
      · next mark first tail heq =>
          injection heq with hmark
          rw [← hmark]
          simp [hc]
      · rfl
    have hgap := dropWhile_isGap_ne_nil hlast hsuffix (List.cons_ne_nil c more)
    obtain ⟨d, tail, htail⟩ := List.exists_cons_of_ne_nil hgap
    have hd := hmarks d (hsuffix.subset
      ((List.dropWhile_sublist isGap).subset (htail ▸ List.mem_cons_self)))
    simp only [List.mem_cons, not_or] at hd
    have hstop : (c :: (more ++ rest)).dropWhile isGap = d :: (tail ++ rest) := by
      rw [← List.cons_append, List.dropWhile_append, htail]
      rfl
    rw [List.dropWhile_append, hdrop] at hahead
    simp [hskip, hstop, hc, hd, LineEnds] at hahead

/-- A written text is cut off as a whole. -/
theorem textSpan_written
    (hlast : ∀ c ∈ cs.getLast?, Text.isBlank c = false)
    (hmarks : ∀ c ∈ cs, c ∉ ['.', '#', '(', '{', '}', '\n'])
    (hrest : LineEnds rest)
    (afterBlank : Bool) :
    textSpan afterBlank (cs ++ rest) = (cs, rest) := by
  induction cs generalizing afterBlank with
  | nil =>
      cases rest with
      | nil =>
          rfl
      | cons c rest =>
          simp [textSpan, hrest c rfl]
  | cons c cs ih =>
      have hc := hmarks c List.mem_cons_self
      have hahead : headerAhead false (c :: (cs ++ rest)) = false := by
        by_contra h
        exact absurd (headerAhead_text hlast hmarks hrest (Bool.not_eq_false _ ▸ h)).1 (by simp)
      have hrun := ih (fun d hd => hlast d (by cases cs <;> simp_all))
        (fun d hd => hmarks d (List.mem_cons_of_mem c hd)) (Text.isBlank c)
      simp only [List.mem_cons, not_or] at hc
      simp [textSpan, hc, hahead, hrun]

/-- A written text is read as itself, without what follows on its line. -/
theorem textRun_written
    (hplain : PlainText cs)
    (hrest : LineEnds rest)
    (position : Position) :
    textRun ⟨cs ++ rest, position⟩ =
      (⟨.textRun, String.ofList cs, position⟩, ⟨rest, position.after cs⟩) := by
  have hend : Text.dropBlankEnd cs = cs := by
    rw [Text.dropBlankEnd, ← List.reverse_inj, List.reverse_reverse]
    exact dropWhile_append_eq_right (List.forall_mem_nil _) (by simpa using hplain.last)
  simp [textRun, textSpan_written hplain.last hplain.marks hrest, hend]

end Text

/-- The token that a margin of `width` blanks makes behind a line of another width. -/
def marginTokens
    (lineWidth width : Nat)
    (position : Position) : List Token :=
  if lineWidth < width then [⟨.indent, String.ofList (List.replicate width ' '), position⟩]
  else if width < lineWidth then [⟨.dedent, String.ofList (List.replicate width ' '), position⟩]
  else []

@[simp]
theorem marginWidth_replicate
    (width : Nat) :
    marginWidth (List.replicate width ' ') = width := by
  induction width with
  | zero =>
      rfl
  | succ width ih =>
      simp [List.replicate_succ, marginWidth, ih, Nat.add_comm]

end Token

namespace Scanner

open Token

/-- The tokens of a source from the beginning of one of its lines. -/
def fromLine
    (c : Cursor)
    (lineWidth : Nat) : Except TokenError (List Token) :=
  let line := beginLine c lineWidth
  line.2.tokens.map (line.1 ++ ·)

theorem tokens_nil
    (position : Position)
    (lineWidth : Nat)
    (fresh : Bool) :
    tokens ⟨⟨[], position⟩, lineWidth, fresh⟩ = .ok [⟨.endOfInput, "", position⟩] := by
  rw [tokens]

theorem tokens_of_step
    {s next : Scanner}
    {c : Char}
    {rest : List Char}
    {read : List Token}
    (hrest : s.cursor.rest = c :: rest)
    (hstep : s.step c rest = .ok (read, next)) :
    s.tokens = next.tokens.map (read ++ ·) := by
  rw [tokens]
  split
  · simp_all
  · next d more hmore =>
      rw [hrest, List.cons.injEq] at hmore
      obtain ⟨rfl, rfl⟩ := hmore
      split
      · simp_all
      · next read' next' hstep' =>
          rw [hstep] at hstep'
          simp only [Except.ok.injEq, Prod.mk.injEq] at hstep'
          rw [hstep'.1, hstep'.2]

/-- A line feed begins the next line. -/
theorem tokens_newline
    (rest : List Char)
    (position : Position)
    (lineWidth : Nat)
    (fresh : Bool) :
    tokens ⟨⟨'\n' :: rest, position⟩, lineWidth, fresh⟩ =
      (fromLine ⟨rest, position.next '\n'⟩ lineWidth).map (single .newline '\n' position :: ·) := by
  rw [tokens_of_step rfl rfl, fromLine]
  cases (beginLine ⟨rest, position.next '\n'⟩ lineWidth).2.tokens <;> rfl

theorem fromLine_nil
    (position : Position)
    (lineWidth : Nat) :
    fromLine ⟨[], position⟩ lineWidth = .ok [⟨.endOfInput, "", position⟩] := by
  have hskip : skipBlankLines ⟨[], position⟩ = ⟨[], position⟩ := by
    rw [skipBlankLines]
    rfl
  simp [fromLine, beginLine, hskip, tokens_nil, Except.map]

/-- An empty line is skipped. -/
theorem fromLine_newline
    (rest : List Char)
    (position : Position)
    (lineWidth : Nat) :
    fromLine ⟨'\n' :: rest, position⟩ lineWidth =
      fromLine ⟨rest, position.next '\n'⟩ lineWidth := by
  have hskip : skipBlankLines ⟨'\n' :: rest, position⟩ =
      skipBlankLines ⟨rest, position.next '\n'⟩ := by
    have hblank : isBlankLine ('\n' :: rest) = true := by simp [isBlankLine, isMargin]
    rw [skipBlankLines, if_pos hblank]
    cases rest with
    | nil =>
        rw [skipBlankLines]
        rfl
    | cons c rest =>
        rfl
  rw [fromLine, fromLine, beginLine, beginLine, hskip]

/-- A margin before a character that is not white space is measured and compared. -/
theorem fromLine_margin
    {c : Char}
    (hblank : Text.isBlank c = false)
    (rest : List Char)
    (position : Position)
    (lineWidth width : Nat) :
    fromLine ⟨List.replicate width ' ' ++ c :: rest, position⟩ lineWidth =
      (tokens ⟨⟨c :: rest, position.after (List.replicate width ' ')⟩, width, true⟩).map
        (marginTokens lineWidth width position ++ ·) := by
  have hmargin : ∀ d ∈ List.replicate width ' ', isMargin d = true := fun d hd => by
    rw [List.eq_of_mem_replicate hd]; rfl
  have hc : c ≠ ' ' ∧ c ≠ '\t' ∧ c ≠ '\n' ∧ c ≠ '\r' := by
    refine ⟨?_, ?_, ?_, ?_⟩ <;> rintro rfl <;> simp [Text.isBlank] at hblank
  have hstop : ∀ d ∈ (c :: rest).head?, isMargin d = false := by
    simp [isMargin, hc]
  have hskip : skipBlankLines ⟨List.replicate width ' ' ++ c :: rest, position⟩ =
      ⟨List.replicate width ' ' ++ c :: rest, position⟩ := by
    rw [skipBlankLines, if_neg]
    simp [isBlankLine, dropWhile_append_eq_right hmargin hstop, hc]
  have hempty : (List.replicate width ' ' ++ c :: rest).isEmpty = false := by simp
  simp only [fromLine, beginLine, hskip, hempty, Cursor.span,
    takeWhile_append_eq_left hmargin hstop, dropWhile_append_eq_right hmargin hstop,
    marginWidth_replicate, marginTokens, Bool.false_eq_true, if_false]

/-- One step: a header is scanned as its tokens. -/
theorem tokens_header
    {tag : String}
    {ds : List Decoration}
    {rest : List Char}
    (htag : isStandardElement tag = true)
    (hds : ∀ d ∈ ds, d.Proper)
    (hrest : LineEnds rest ∨ ∃ more, rest = ' ' :: '{' :: more)
    (position : Position)
    (lineWidth : Nat) :
    ∃ read, tokens ⟨⟨headerText tag ds ++ rest, position⟩, lineWidth, true⟩ =
        (tokens ⟨⟨rest, position.after (headerText tag ds)⟩, lineWidth, false⟩).map (read ++ ·) ∧
      read.map bare = (.identifier, tag) :: ds.flatMap Decoration.tokens := by
  have hident := isIdentifier_of_isStandardElement htag
  obtain ⟨first, more, htext, -, hchars⟩ := exists_of_isIdentifier hident
  have hahead := headerAhead_written htag hds hrest
  obtain ⟨read, hread, hbare⟩ := header_written hident hds (headerEnds_of_lineEnds hrest) position
  have hfirst := hchars first (htext ▸ List.mem_cons_self)
  have hc : ∀ d ∈ ['\n', ' ', '\t', '\r', '{', '}'], first ≠ d := by
    rintro d hd rfl
    have hnone : isIdentifierChar first = false := eq_false_of_mem (by decide) hd
    simp [hnone] at hfirst
  have hcons : headerText tag ds ++ rest =
      first :: (more ++ (ds.flatMap Decoration.written ++ rest)) := by
    simp [headerText, htext]
  rw [hcons] at hahead hread ⊢
  refine ⟨read, tokens_of_step rfl ?_, hbare⟩
  simp only [List.mem_cons, List.not_mem_nil, or_false, forall_eq_or_imp, forall_eq] at hc
  simp [step, isGap, hc, hahead, hread, Except.map]

/-- One step: a text is scanned as one token. -/
theorem tokens_text
    {cs rest : List Char}
    (hplain : PlainText cs)
    (hrest : LineEnds rest)
    (position : Position)
    (lineWidth : Nat) :
    tokens ⟨⟨cs ++ rest, position⟩, lineWidth, true⟩ =
      (tokens ⟨⟨rest, position.after cs⟩, lineWidth, false⟩).map
        (⟨.textRun, String.ofList cs, position⟩ :: ·) := by
  have hrun := textRun_written hplain hrest position
  have hahead : headerAhead true (cs ++ rest) = false := by
    by_contra h
    have hword := (headerAhead_text hplain.last hplain.marks hrest (Bool.not_eq_false _ ▸ h)).2
    simp [hplain.word] at hword
  obtain ⟨first, more, rfl⟩ := List.exists_cons_of_ne_nil hplain.nonempty
  have hblank := hplain.first first rfl
  have hmark := hplain.marks first List.mem_cons_self
  have hgap : isGap first = false := by
    by_contra h
    simp [isBlank_of_isGap (Bool.not_eq_false _ ▸ h)] at hblank
  simp only [List.mem_cons, not_or] at hmark
  simp only [List.cons_append] at hrun hahead
  have hstep : step ⟨⟨first :: more ++ rest, position⟩, lineWidth, true⟩ first (more ++ rest) =
      .ok ([⟨.textRun, String.ofList (first :: more), position⟩],
        ⟨⟨rest, position.after (first :: more)⟩, lineWidth, false⟩) := by
    simp [step, hmark, hgap, hahead, hrun]
  exact tokens_of_step rfl hstep

theorem tokens_braceOpen
    (rest : List Char)
    (position : Position)
    (lineWidth : Nat) :
    tokens ⟨⟨' ' :: '{' :: rest, position⟩, lineWidth, false⟩ =
      (tokens ⟨⟨rest, (position.next ' ').next '{'⟩, lineWidth, false⟩).map
        (single .braceOpen '{' (position.next ' ') :: ·) := by
  rw [tokens_of_step rfl rfl, tokens_of_step rfl rfl]
  cases tokens ⟨⟨rest, (position.next ' ').next '{'⟩, lineWidth, false⟩ <;> rfl

theorem tokens_braceClose
    (rest : List Char)
    (position : Position)
    (lineWidth : Nat)
    (fresh : Bool) :
    tokens ⟨⟨'}' :: rest, position⟩, lineWidth, fresh⟩ =
      (tokens ⟨⟨rest, position.next '}'⟩, lineWidth, false⟩).map
        (single .braceClose '}' position :: ·) := by
  rw [tokens_of_step rfl rfl]
  rfl

end Scanner

end BlockMarkup
