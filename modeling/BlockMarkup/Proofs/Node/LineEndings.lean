import BlockMarkup.Proofs.Node.Unseen
import BlockMarkup.Proofs.Token.LineEndings

/-!
# Line endings do not matter

A source whose lines end with a carriage return and a line feed is read like the one whose lines end
with a line feed alone: the tokens differ only in the places of the line breaks, which reading does
not see (`Document.read_withReturns`).
-/

namespace BlockMarkup

/-- Tokens that keep everything but the places of line breaks. -/
theorem Token.Zoned.twins
    {zone : Token.Zone}
    {before : List Token}
    {eof : Token}
    {f : Token → Token}
    (hzoned : Token.Zoned zone (before ++ [eof]))
    (heof : eof.kind = .endOfInput)
    (hkind : ∀ t, (f t).kind = t.kind)
    (hsame : ∀ t ∈ before ++ [eof], t.kind ≠ .newline → f t = t) :
    Reader.Twins zone (before ++ [eof]) ((before ++ [eof]).map f) := by
  induction before generalizing zone with
  | nil =>
      have hfixed : f eof = eof := hsame eof (by simp) (by simp [heof])
      simp only [List.nil_append, List.map_cons, hfixed]
      exact .endOfInput heof zone [] _
  | cons t before ih =>
      obtain ⟨ht, hrest⟩ := hzoned
      have hmore := ih hrest fun u hu => hsame u (List.mem_cons_of_mem t hu)
      by_cases hnewline : t.kind = .newline
      · -- a line ends among nodes only
        cases zone with
        | nodes =>
            have hnodes : Token.Zone.behind .nodes t = .nodes := by
              simp [Token.Zone.behind, hnewline]
            rw [hnodes] at hmore
            exact .newline hnewline ((hkind t).trans hnewline) hmore
        | name =>
            cases ht.1.symm.trans hnewline
        | list =>
            exact absurd hnewline ht.1
      · have hfixed : f t = t := hsame t (by simp) hnewline
        simp only [List.cons_append, List.map_cons, hfixed]
        exact .same t hmore

namespace Document

/-- Where no literal goes over several lines, the tokens of the text with the carriage returns put
in are read alike. -/
theorem ofTokens_map_addReturn
    {source : String}
    {tokens : List Token}
    (hscan : Token.scan source = .ok tokens)
    (hliteral : ∀ t ∈ tokens, t.kind = .stringLiteral → '\n' ∉ t.text.toList) :
    ofTokens (tokens.map Token.addReturn) = ofTokens tokens := by
  have hzoned := Token.scan_zoned hscan
  obtain ⟨before, stop, rfl, -, -⟩ := Token.scan_passes hscan
  have htwins := hzoned.twins rfl Token.kind_addReturn fun t ht hnewline =>
    Token.addReturn_eq_self hnewline (hliteral t ht)
  exact (Reader.run_twins _ _ Reader.start htwins).symm

/-- Putting a carriage return before every line feed changes neither what is read from a source nor
what is complained about, and so nothing that is made from it. -/
theorem read_withReturns
    {source : String}
    {tokens : List Token}
    (hscan : Token.scan source = .ok tokens)
    (hliteral : ∀ t ∈ tokens, t.kind = .stringLiteral → '\n' ∉ t.text.toList)
    (file : String) :
    read (Text.withReturns source) file = read source file ∧
      ∀ options, compile (Text.withReturns source) file options = compile source file options := by
  have hread : read (Text.withReturns source) file = read source file := by
    unfold read parse
    rw [Token.scan_withReturns, hscan]
    simp only [Except.map, ofTokens_map_addReturn hscan hliteral]
  refine ⟨hread, fun options => ?_⟩
  unfold compile
  rw [hread]

/-- Blank lines, a header at the end of its line, runs of text and a list over several lines. -/
def looseSource : String :=
  "\n  \n.note\nmain#top  \n\n  p.lead(title: \"a\",\n    style: 'color: red'\n  ) \x7b\n  " ++
    "some text \n  hr\n  \t\n  \x7d tail\n"

theorem read_withReturns_looseSource :
    ∃ tokens, Token.scan looseSource = .ok tokens ∧
      (∀ t ∈ tokens, t.kind = .stringLiteral → '\n' ∉ t.text.toList) ∧
      (read looseSource "index").isOk = true ∧
      read (Text.withReturns looseSource) "index" = read looseSource "index" ∧
      ∀ options, compile (Text.withReturns looseSource) "index" options =
        compile looseSource "index" options := by
  have hok : (read looseSource "index").isOk = true := by decide +kernel
  have hlines : (Token.scan looseSource).toOption.any (fun tokens => tokens.all fun t =>
      t.kind != .stringLiteral || !t.text.toList.contains '\n') = true := by decide +kernel
  cases hscan : Token.scan looseSource with
  | error e =>
      simp [hscan, Except.toOption] at hlines
  | ok tokens =>
      have hliteral : ∀ t ∈ tokens, t.kind = .stringLiteral → '\n' ∉ t.text.toList := by
        intro t ht hkind
        simp only [hscan, Except.toOption, Option.any_some, List.all_eq_true] at hlines
        simpa [hkind] using hlines t ht
      exact ⟨tokens, rfl, hliteral, hok, read_withReturns hscan hliteral "index"⟩

end Document

end BlockMarkup
