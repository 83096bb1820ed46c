import BlockMarkup.Page.Html
import BlockMarkup.Proofs.Text.Place
import BlockMarkup.Proofs.Token.Written
import Mathlib.Data.List.TakeWhile

/-!
# Reading markup

How a reader who knows nothing of the generator takes a text apart. The text is cut into tags and
what stands between them; a tag is split into its name and its attributes; entities are replaced
by the characters they stand for; and what stands between tags is divided into lines, of which the
margins are ignored. A text written by escaping comes back from this unchanged, and the attributes
of a tag can be split in one way only.
-/

namespace BlockMarkup.Page

/-- Replaces entities by the characters they stand for. -/
def unescape : List Char → List Char
  | [] => []
  | '&' :: 'a' :: 'm' :: 'p' :: ';' :: cs => '&' :: unescape cs
  | '&' :: 'l' :: 't' :: ';' :: cs => '<' :: unescape cs
  | '&' :: 'g' :: 't' :: ';' :: cs => '>' :: unescape cs
  | '&' :: 'q' :: 'u' :: 'o' :: 't' :: ';' :: cs => '"' :: unescape cs
  | '&' :: '#' :: 'x' :: '2' :: '7' :: ';' :: cs => '\'' :: unescape cs
  | c :: cs => c :: unescape cs

theorem unescape_cons_of_ne
    {c : Char}
    (hc : c ≠ '&')
    (cs : List Char) :
    unescape (c :: cs) = c :: unescape cs := by
  rw [unescape] <;> simp [hc]

/-- No entity is made by two characters that are escaped one after another. -/
theorem unescape_flatMap_escapeChar
    (cs : List Char) :
    unescape (cs.flatMap escapeChar) = cs := by
  induction cs with
  | nil =>
      rfl
  | cons c cs ih =>
      rw [List.flatMap_cons, escapeChar]
      split_ifs with h₁ h₂ h₃ h₄ h₅
      · simp [h₁, unescape, ih]
      · simp [h₂, unescape, ih]
      · simp [h₃, unescape, ih]
      · simp [h₄, unescape, ih]
      · simp [h₅, unescape, ih]
      · rw [List.singleton_append, unescape_cons_of_ne h₁, ih]

/-- What is escaped is read back. -/
theorem unescape_escape
    (s : String) :
    unescape (escape s).toList = s.toList := by
  rw [escape, String.toList_ofList, unescape_flatMap_escapeChar]

/-- Whether a character occurs in an entity. -/
def isEntityChar (c : Char) : Bool := "&amp;&lt;&gt;&quot;&#x27;".toList.contains c

/-- Where the characters of an escaped text come from. -/
theorem mem_escape
    {s : String}
    {c : Char}
    (hc : c ∈ (escape s).toList) :
    isEntityChar c = true ∨ c ∈ s.toList ∧ c ≠ '<' ∧ c ≠ '>' ∧ c ≠ '"' := by
  rw [escape, String.toList_ofList, List.mem_flatMap] at hc
  obtain ⟨d, hd, hc⟩ := hc
  unfold escapeChar at hc
  split_ifs at hc with h₁ h₂ h₃ h₄ h₅
  · exact Or.inl (List.all_eq_true.1 (by decide) c hc)
  · exact Or.inl (List.all_eq_true.1 (by decide) c hc)
  · exact Or.inl (List.all_eq_true.1 (by decide) c hc)
  · exact Or.inl (List.all_eq_true.1 (by decide) c hc)
  · exact Or.inl (List.all_eq_true.1 (by decide) c hc)
  · rw [List.mem_singleton] at hc
    exact Or.inr (hc ▸ ⟨hd, h₂, h₃, h₄⟩)

/-- What is escaped has no markup in it. -/
theorem not_mem_escape
    (s : String)
    {c : Char}
    (hc : c = '<' ∨ c = '>' ∨ c = '"') :
    c ∉ (escape s).toList := by
  intro hmem
  rcases mem_escape hmem with hentity | ⟨-, hopen, hclose, hquote⟩
  · rcases hc with rfl | rfl | rfl <;> exact absurd hentity (by decide)
  · exact hc.elim hopen fun hc => hc.elim hclose hquote

theorem newline_not_mem_escape
    {s : String}
    (hs : '\n' ∉ s.toList) :
    '\n' ∉ (escape s).toList := by
  intro hmem
  rcases mem_escape hmem with hentity | ⟨hmem, -⟩
  · exact absurd hentity (by decide)
  · exact hs hmem

/-- Escaping puts no blank in front of a text. -/
theorem head?_escape_ne
    {s : String}
    (hs : s.toList.head? ≠ some ' ') :
    (escape s).toList.head? ≠ some ' ' := by
  rw [escape, String.toList_ofList]
  cases hchars : s.toList with
  | nil =>
      simp
  | cons c cs =>
      rw [hchars, List.head?_cons] at hs
      have hc : c ≠ ' ' := by simpa using hs
      rw [List.flatMap_cons, escapeChar]
      split_ifs <;> simp [hc]

/-- A piece of markup: a tag without its brackets, or what stands between two tags. -/
inductive Piece where
  | text (chars : List Char)
  | tag (chars : List Char)
  deriving DecidableEq

namespace Piece

def ofChars (inside : Bool) (chars : List Char) : Piece := if inside then tag chars else text chars

def push (c : Char) : Piece → Piece
  | text chars => text (c :: chars)
  | tag chars => tag (c :: chars)

/-- What a piece holds: a tag, or the lines between two tags without margins and entities. Lines
with nothing in them are left out. -/
def contents : Piece → List Piece
  | tag chars => [tag chars]
  | text chars =>
    ((Text.splitAt (· = '\n') chars).map fun line => unescape (line.dropWhile (· = ' '))).filter
      (· ≠ []) |>.map text

end Piece

/-- Cuts a text at every opening bracket outside a tag and at every closing bracket inside one. -/
def cut
    (inside : Bool) :
    List Char → List Piece
  | [] => [Piece.ofChars inside []]
  | c :: cs =>
    if c = (if inside then '>' else '<') then Piece.ofChars inside [] :: cut (!inside) cs
    else (cut inside cs).modifyHead (Piece.push c)

/-- The tags of a text and the lines between them, in order. -/
def contentsOf (cs : List Char) : List Piece := (cut false cs).flatMap Piece.contents

section Cut

theorem exists_cut_eq
    (cs : List Char) :
    ∃ chars rest, cut false cs = .text chars :: rest := by
  induction cs with
  | nil =>
      exact ⟨[], [], rfl⟩
  | cons c cs ih =>
      obtain ⟨chars, rest, hcut⟩ := ih
      by_cases hc : c = '<'
      · exact ⟨[], cut true cs, by simp [cut, hc, Piece.ofChars]⟩
      · exact ⟨c :: chars, rest, by simp [cut, hc, hcut, Piece.push]⟩

theorem cut_text
    {chars : List Char}
    (hchars : '<' ∉ chars)
    {cs first : List Char}
    {rest : List Piece}
    (hcut : cut false cs = .text first :: rest) :
    cut false (chars ++ cs) = .text (chars ++ first) :: rest := by
  induction chars with
  | nil =>
      exact hcut
  | cons c chars ih =>
      rw [List.mem_cons, not_or] at hchars
      have hc : ¬c = '<' := fun h => hchars.1 h.symm
      simp [cut, hc, ih hchars.2, Piece.push]

theorem cut_inside
    {tag : List Char}
    (htag : '>' ∉ tag)
    (cs : List Char) :
    cut true (tag ++ '>' :: cs) = .tag tag :: cut false cs := by
  induction tag with
  | nil =>
      simp [cut, Piece.ofChars]
  | cons c tag ih =>
      rw [List.mem_cons, not_or] at htag
      have hc : ¬c = '>' := fun h => htag.1 h.symm
      simp [cut, hc, ih htag.2, Piece.push]

/-- A tag is cut out of the text around it. -/
theorem cut_tag
    {chars tag : List Char}
    (hchars : '<' ∉ chars)
    (htag : '>' ∉ tag)
    (cs : List Char) :
    cut false (chars ++ '<' :: (tag ++ '>' :: cs)) =
      .text chars :: .tag tag :: cut false cs := by
  have hopen : cut false ('<' :: (tag ++ '>' :: cs)) = .text [] :: .tag tag :: cut false cs := by
    simp [cut, Piece.ofChars, cut_inside htag]
  simpa using cut_text hchars hopen

theorem contentsOf_nil :
    contentsOf [] = [] := rfl

theorem contentsOf_line
    {line : List Char}
    (hopen : '<' ∉ line)
    (cs : List Char) :
    contentsOf (line ++ '\n' :: cs) = (Piece.text line).contents ++ contentsOf cs := by
  obtain ⟨first, rest, hcut⟩ := exists_cut_eq cs
  have hlong : cut false ((line ++ ['\n']) ++ cs) = .text ((line ++ ['\n']) ++ first) :: rest :=
    cut_text (by simpa using hopen) hcut
  -- the line and what follows its break are in one piece, which splits at the break
  rw [List.append_assoc, List.singleton_append] at hlong
  rw [contentsOf, contentsOf, hlong, hcut, List.flatMap_cons, List.flatMap_cons,
    ← List.append_assoc]
  congr 1
  simp only [Piece.contents, List.append_assoc, List.singleton_append, Text.splitAt_append_cons,
    List.map_append, List.filter_append]

/-- A tag is one piece of contents, behind what stands before it. -/
theorem contentsOf_tag
    {line tag : List Char}
    (hopen : '<' ∉ line)
    (htag : '>' ∉ tag)
    (cs : List Char) :
    contentsOf (line ++ '<' :: (tag ++ '>' :: cs)) =
      (Piece.text line).contents ++ .tag tag :: contentsOf cs := by
  rw [contentsOf, cut_tag hopen htag, List.flatMap_cons, List.flatMap_cons]
  rfl

end Cut

section Line

/-- What stands on one line: an escaped text behind a margin, if it is not empty. -/
theorem contents_margin_escape
    {s : String}
    (hline : '\n' ∉ s.toList)
    (hblank : s.toList.head? ≠ some ' ')
    (depth : Nat) :
    (Piece.text ((margin depth).toList ++ (escape s).toList)).contents =
      if s = "" then [] else [.text s.toList] := by
  have hmargin : ∀ c ∈ (margin depth).toList, decide (c = ' ') = true := by
    simp [margin]
  have hhead : ∀ c ∈ (escape s).toList.head?, decide (c = ' ') = false := by
    intro c hc
    exact decide_eq_false fun h => head?_escape_ne hblank (h ▸ hc)
  have hnewline : '\n' ∉ (margin depth).toList ++ (escape s).toList := by
    rw [List.mem_append, not_or]
    exact ⟨by simp [margin], newline_not_mem_escape hline⟩
  rw [Piece.contents, Text.splitAt_eq_singleton hnewline]
  simp only [List.map_cons, List.map_nil, dropWhile_append_eq_right hmargin hhead, unescape_escape]
  by_cases hs : s = ""
  · simp [hs]
  · simp [hs]

theorem contents_margin
    (depth : Nat) :
    (Piece.text (margin depth).toList).contents = [] := by
  simpa [escape] using contents_margin_escape (s := "") (by simp) (by simp) depth

end Line

section Attributes

/-- A name and a value as they stand in a start tag. -/
def writtenPair (pair : List Char × List Char) : List Char :=
  ' ' :: (pair.1 ++ '=' :: '"' :: (pair.2 ++ ['"']))

/-- `Splits chars split`: the start tag `chars` is the tag `split.1` with the attributes
`split.2`. The tag has no blank, no name has an equals sign and no value has a quote. -/
structure Splits
    (chars : List Char)
    (split : List Char × List (List Char × List Char)) : Prop where
  written : chars = split.1 ++ split.2.flatMap writtenPair
  tag : ' ' ∉ split.1
  pairs : ∀ pair ∈ split.2, '=' ∉ pair.1 ∧ '"' ∉ pair.2

theorem append_cons_inj
    {α : Type}
    [DecidableEq α]
    {c : α}
    {as bs as' bs' : List α}
    (has : c ∉ as)
    (hbs : c ∉ bs)
    (heq : as ++ c :: as' = bs ++ c :: bs') :
    as = bs ∧ as' = bs' := by
  have htake : ∀ {cs : List α}, c ∉ cs → ∀ rest, (cs ++ c :: rest).takeWhile (· ≠ c) = cs := by
    intro cs hcs rest
    refine takeWhile_append_eq_left (fun d hd => ?_) (by simp)
    exact decide_eq_true fun h => hcs (h ▸ hd)
  have hfirst : as = bs := by
    rw [← htake has as', heq, htake hbs]
  subst hfirst
  simpa using heq

/-- The attributes of a start tag can be read in one way only. -/
theorem flatMap_writtenPair_inj
    {pairs others : List (List Char × List Char)}
    (hpairs : ∀ pair ∈ pairs, '=' ∉ pair.1 ∧ '"' ∉ pair.2)
    (hothers : ∀ pair ∈ others, '=' ∉ pair.1 ∧ '"' ∉ pair.2)
    (heq : pairs.flatMap writtenPair = others.flatMap writtenPair) :
    pairs = others := by
  induction pairs generalizing others with
  | nil =>
      cases others with
      | nil =>
          rfl
      | cons other others =>
          simp [writtenPair] at heq
  | cons pair pairs ih =>
      cases others with
      | nil =>
          simp [writtenPair] at heq
      | cons other others =>
          rw [List.forall_mem_cons] at hpairs hothers
          simp only [List.flatMap_cons, writtenPair, List.cons_append, List.append_assoc,
            List.nil_append, List.cons.injEq, true_and] at heq
          -- the first equals sign ends the name, and the first quote behind it ends the value
          obtain ⟨hname, hrest⟩ := append_cons_inj hpairs.1.1 hothers.1.1 heq
          simp only [List.cons.injEq, true_and] at hrest
          obtain ⟨hvalue, hrest⟩ := append_cons_inj hpairs.1.2 hothers.1.2 hrest
          rw [Prod.ext hname hvalue, ih hpairs.2 hothers.2 hrest]

theorem Splits.tag_eq
    {chars : List Char}
    {split : List Char × List (List Char × List Char)}
    (h : Splits chars split) :
    chars.takeWhile (· ≠ ' ') = split.1 := by
  rw [h.written]
  refine takeWhile_append_eq_left (fun c hc => ?_) ?_
  · exact decide_eq_true fun heq => h.tag (heq ▸ hc)
  · cases split.2 <;> simp [writtenPair]

/-- A start tag can be split in one way only. -/
theorem Splits.unique
    {chars : List Char}
    {split other : List Char × List (List Char × List Char)}
    (h : Splits chars split)
    (hother : Splits chars other) :
    other = split := by
  have htag : other.1 = split.1 := hother.tag_eq.symm.trans h.tag_eq
  have hwritten := hother.written.symm.trans h.written
  rw [htag, List.append_cancel_left_eq] at hwritten
  exact Prod.ext htag (flatMap_writtenPair_inj hother.pairs h.pairs hwritten)

end Attributes

end BlockMarkup.Page
