import BlockMarkup.Proofs.Token.Orderly
import BlockMarkup.Proofs.Token.Zones

/-!
# The white space around text runs

The scanner goes past spaces, tabs and carriage returns before a text run and cuts all white space
off behind it. Other white space is not skipped: a run that begins with it keeps it, and a run of
nothing else is left without any text. So a run is trimmed exactly if the character that it begins
at is not white space, which holds for every run where a source has no white space but spaces, tabs
and line breaks.
-/

namespace BlockMarkup

namespace Text

/-- Whether a text is there at all and has no white space around it. -/
structure IsTrimmed (text : List Char) : Prop where
  ne_nil : text ≠ []
  first : ∀ c ∈ text.head?, isBlank c = false
  last : ∀ c ∈ text.getLast?, isBlank c = false

/-- The white space that the scanner goes past, line breaks included. -/
def plainBlanks : List Char := [' ', '\t', '\r', '\n']

/-- The first character decides whether a text is trimmed once the white space behind it is cut
off. -/
theorem isTrimmed_dropBlankEnd_cons_iff
    (c : Char)
    (more : List Char) :
    IsTrimmed (dropBlankEnd (c :: more)) ↔ isBlank c = false := by
  have hlast := Token.isBlank_getLast?_dropBlankEnd (c :: more)
  obtain ⟨blanks, hcs, hblanks⟩ := exists_dropBlankEnd_append (c :: more)
  cases hkept : dropBlankEnd (c :: more) with
  | nil =>
      -- nothing is kept, so that `c` has been cut off with the rest
      rw [hkept, List.nil_append] at hcs
      have hc : isBlank c = true := hblanks c (by simp [← hcs])
      exact ⟨fun h => absurd rfl h.ne_nil, fun h => by simp [hc] at h⟩
  | cons d kept =>
      rw [hkept, List.cons_append, List.cons.injEq] at hcs
      obtain ⟨rfl, -⟩ := hcs
      rw [hkept] at hlast
      exact ⟨fun h => h.first c rfl, fun h => ⟨by simp, by simpa using h, hlast⟩⟩

end Text

namespace Token

/-- Whether a text run is what stands in a source from a character on that is neither a brace nor
plain white space, without white space at its end, and is trimmed if and only if that character is
not white space. -/
def IsRunOf
    (t : Token)
    (source : List Char) : Prop :=
  Text.HasAt source t.position fun c after =>
    c ∉ Text.plainBlanks ∧ c ∉ ['{', '}'] ∧ t.text.toList <+: c :: after ∧
      (∀ d ∈ t.text.toList.getLast?, Text.isBlank d = false) ∧
      (Text.IsTrimmed t.text.toList ↔ Text.isBlank c = false)

/-- A text run that begins where it says is one of the source. -/
theorem Begins.isRunOf
    {source : List Char}
    {t : Token}
    (h : t.Begins source)
    (hkind : t.kind = .textRun) :
    t.IsRunOf source := by
  refine h.imp fun c after hopens => ?_
  simp only [Opens, hkind] at hopens
  obtain ⟨hc, more, hmore, htext⟩ := hopens
  have hkept := dropBlankEnd_prefix (c :: more)
  have hbehind : c :: more <+: c :: after := (List.prefix_cons_inj c).2 hmore
  refine ⟨?_, ?_, ?_, ?_, ?_⟩
  · exact fun hmem => hc (List.mem_append_left ['{', '}'] hmem)
  · exact fun hmem => hc (List.mem_append_right Text.plainBlanks hmem)
  · exact htext ▸ hkept.trans hbehind
  · exact htext ▸ isBlank_getLast?_dropBlankEnd _
  · exact htext ▸ Text.isTrimmed_dropBlankEnd_cons_iff c more

/-- Every text run of a source runs from a character of it, which tells whether the run is trimmed.
All runs are trimmed if the source has no white space but spaces, tabs and line breaks. -/
theorem scan_textRun_trimmed_iff
    {source : String}
    {tokens : List Token}
    (hscan : scan source = .ok tokens) :
    (∀ t ∈ tokens, t.kind = .textRun → t.IsRunOf source.toList) ∧
      ((∀ c ∈ source.toList, Text.isBlank c = true → c ∈ Text.plainBlanks) →
        ∀ t ∈ tokens, t.kind = .textRun → Text.IsTrimmed t.text.toList) := by
  have hruns : ∀ t ∈ tokens, t.kind = .textRun → t.IsRunOf source.toList :=
    fun t ht hkind => ((scan_scanned hscan).begins t ht (by simp [hkind])).isRunOf hkind
  refine ⟨hruns, fun hplain t ht hkind => ?_⟩
  obtain ⟨before, c, after, hsource, -, hc, -, -, -, htrimmed⟩ := hruns t ht hkind
  refine htrimmed.2 (Bool.eq_false_iff.2 fun hblank => hc (hplain c ?_ hblank))
  simp [hsource]

/-- A block with margins, a blank line and lines that end in spaces and tabs. -/
def spacedBlock : String :=
  "section \x7b\r\n\t  Ten km  \t\r\n \t\r\n  \x7d  and\tback   p.x(a: \"1\")\r\n"

theorem scan_textRun_trimmed_iff_spacedBlock :
    ∃ tokens, scan spacedBlock = .ok tokens ∧
      (tokens.filter (·.kind = .textRun)).map (fun t => (t.text, t.position)) =
        [("Ten km", ⟨2, 4⟩), ("and\tback", ⟨4, 6⟩)] ∧
      (∀ t ∈ tokens, t.kind = .textRun → t.IsRunOf spacedBlock.toList) ∧
      (∀ c ∈ spacedBlock.toList, Text.isBlank c = true → c ∈ Text.plainBlanks) ∧
      ∀ t ∈ tokens, t.kind = .textRun → Text.IsTrimmed t.text.toList := by
  have hruns : (scan spacedBlock).toOption.map (fun tokens =>
        (tokens.filter (·.kind = .textRun)).map fun t => (t.text, t.position)) =
      some [("Ten km", ⟨2, 4⟩), ("and\tback", ⟨4, 6⟩)] := by decide +kernel
  have hplain : ∀ c ∈ spacedBlock.toList, Text.isBlank c = true → c ∈ Text.plainBlanks := by
    have hall : (spacedBlock.toList.filter Text.isBlank).all Text.plainBlanks.contains = true := by
      decide +kernel
    intro c hc hblank
    simpa using List.all_eq_true.1 hall c (List.mem_filter.2 ⟨hc, hblank⟩)
  cases hscan : scan spacedBlock with
  | error e => simp [hscan, Except.toOption] at hruns
  | ok tokens =>
      obtain ⟨hfrom, htrimmed⟩ := scan_textRun_trimmed_iff hscan
      refine ⟨tokens, rfl, ?_, hfrom, hplain, htrimmed hplain⟩
      simpa [hscan, Except.toOption] using hruns

/-- A no-break space before a text is kept, and a line with nothing else makes a run without
text. -/
theorem textRun_keeps_noBreakSpace :
    Text.isBlank '\u00a0' = true ∧
      scan "\u00a0Hello\n\u00a0\n" =
        .ok [⟨.textRun, "\u00a0Hello", ⟨1, 1⟩⟩, ⟨.newline, "\n", ⟨1, 7⟩⟩,
          ⟨.textRun, "", ⟨2, 1⟩⟩, ⟨.newline, "\n", ⟨2, 2⟩⟩, ⟨.endOfInput, "", ⟨3, 1⟩⟩] ∧
      ¬ Text.IsTrimmed "\u00a0Hello".toList ∧ ¬ Text.IsTrimmed "".toList := by
  have hblank : Text.isBlank '\u00a0' = true := by decide
  refine ⟨hblank, by decide +kernel, fun h => ?_, fun h => h.ne_nil rfl⟩
  have hfirst := h.first '\u00a0' rfl
  rw [hblank] at hfirst
  cases hfirst

end Token

end BlockMarkup
