import BlockMarkup.Proofs.Node.Places
import BlockMarkup.Proofs.Token.Faults

/-!
# Failures and their places

Compiling can fail while a source is cut into tokens, while these are read, while lines are nested
and while the document is validated. Each of these stages takes its places from the one before, and
the first of them counts the characters of the source. So whatever fails, the place of the failure
is that of a character of the source, and the failure tells which character that is
(`Failure.Tells`).
-/

namespace BlockMarkup

/-! ## The places of diagnostics -/

theorem Attribute.position_of_mem_errors
    {position : Position}
    {name : String}
    {value : Attribute}
    {d : Diagnostic}
    (hd : d ∈ value.errors position name) :
    d.position = position := by
  cases value with
  | text value =>
      simp only [errors] at hd
      split at hd
      · split at hd
        · cases hd
        · rw [List.mem_singleton.1 hd]
      · cases hd
  | style declarations =>
      obtain ⟨⟨property, value⟩, -, hd⟩ := List.mem_flatMap.1 hd
      rcases List.mem_append.1 hd with hd | hd
      · rw [eq_of_mem_ite (Or.inr hd)]
      · rw [eq_of_mem_ite (Or.inr hd)]
  | directive directive =>
      rw [eq_of_mem_ite (Or.inl hd)]

/-- The errors of an element are at its place. -/
theorem Header.position_of_mem_errors
    {h : Header}
    {d : Diagnostic}
    (hd : d ∈ h.errors) :
    d.position = h.position := by
  simp only [errors, List.mem_append] at hd
  rcases hd with ((htag | hid) | hclass) | hattribute
  · rw [eq_of_mem_ite (Or.inr htag)]
  · unfold idErrors at hid
    split at hid
    · cases hid
    · rw [eq_of_mem_ite (Or.inr hid)]
  · obtain ⟨name, -, hname⟩ := List.mem_flatMap.1 hclass
    rw [eq_of_mem_ite (Or.inr hname)]
  · obtain ⟨⟨name, value⟩, -, hvalue⟩ := List.mem_flatMap.1 hattribute
    exact Attribute.position_of_mem_errors hvalue

/-- An error of validation is at the place of the element that has it. -/
theorem Document.position_of_mem_errors
    {document : Document}
    {file : String}
    {threshold : Nat}
    {d : Diagnostic}
    (hd : d ∈ (document.validate file threshold).errors) :
    ∃ header children, .element header children ∈ Node.preorderList document ∧
      d ∈ header.errors ∧ d.position = header.position := by
  rw [errors_validate] at hd
  obtain ⟨e, he, hd⟩ := List.mem_flatMap.1 hd
  have hheader : e.header ∈ document.headers := by
    rw [← elements_map_header]
    exact List.mem_map_of_mem he
  obtain ⟨children, hnode⟩ := mem_preorderList_of_mem_headers hheader
  exact ⟨e.header, children, hnode, hd, Header.position_of_mem_errors hd⟩

/-! ## The places of failures -/

namespace Failure

/-- What a failure tells about the character `c` at its place, and about `after`, which stands
behind that. A fault of indentation is blamed on a node that opens there, and the first error of
validation is one of an element that opens there. -/
def Tells
    (source file : String)
    (e : Failure)
    (c : Char)
    (after : List Char) : Prop :=
  match e with
  | token _ e => e.problem.Blames c
  | tree _ e => e.problem.Blames c after
  | indentation _ e =>
    ∃ document, Document.parse source file = .ok document ∧
      ∃ n ∈ Node.preorderList document, n.position = e.position ∧ n.Opens c after
  | invalid v =>
    ∃ document, Document.read source file = .ok document ∧
      ∃ header children, .element header children ∈ Node.preorderList document ∧
        (∃ d, v.errors.head? = some d ∧ d ∈ header.errors ∧ d.position = header.position) ∧
        (Node.element header children).Opens c after

/-- Whether a failure has a place, and a character of the source there is as the failure tells. -/
def Points
    (source file : String)
    (e : Failure) : Prop :=
  ∃ place, e.position? = some place ∧ Text.HasAt source.toList place (e.Tells source file)

end Failure

variable {source file : String} {e : Failure}

namespace Document

/-- A failure to scan or to build the tree points at its cause. -/
theorem parse_failure_points
    (hparse : parse source file = .error e) :
    e.Points source file := by
  unfold parse at hparse
  split at hparse
  · next e' hscan =>
      cases hparse
      exact ⟨e'.position, rfl, Token.scan_blames hscan⟩
  · next tokens hscan =>
      split at hparse
      · next e' htokens =>
          cases hparse
          have hscanned := Token.scan_scanned hscan
          have hcomplaint := ofTokens_complaint hscanned.orderly htokens
          exact ⟨e'.position, rfl, hcomplaint.blames hscanned⟩
      · cases hparse

theorem read_failure_points
    (hread : read source file = .error e) :
    e.Points source file := by
  unfold read at hread
  split at hread
  · next hparse =>
      cases hread
      exact parse_failure_points hparse
  · next document hparse =>
      unfold nestFrom at hread
      split at hread
      · next e' hnest =>
          cases hread
          obtain ⟨n, hn, hposition⟩ := nest_error_position hnest
          refine ⟨e'.position, rfl, ?_⟩
          rw [← hposition]
          refine (parse_opens hparse n hn).imp fun c after hopens => ?_
          exact ⟨document, hparse, n, hn, hposition, hopens⟩
      · cases hread

theorem validate_failure_points
    {document : Document}
    (hread : read source file = .ok document)
    {threshold : Nat}
    (hvalid : (document.validate file threshold).isOk = false) :
    (Failure.invalid (document.validate file threshold)).Points source file := by
  cases herrors : (document.validate file threshold).errors with
  | nil =>
      simp [Validation.isOk, herrors] at hvalid
  | cons d rest =>
      obtain ⟨header, children, hnode, hd, hposition⟩ :=
        position_of_mem_errors (herrors ▸ List.mem_cons_self)
      refine ⟨d.position, by simp [Failure.position?, herrors], ?_⟩
      rw [hposition]
      refine (read_opens hread _ hnode).imp fun c after hopens => ?_
      exact ⟨document, hread, header, children, hnode, ⟨d, by simp [herrors], hd, hposition⟩,
        hopens⟩

end Document

/-- Whenever compiling fails, the failure has a place, and it is that of a character of the source:
the quote of the string that does not end, the parenthesis of the list that does not end, the
character that is not allowed, the brace without its partner, the brace that opens a block too deep,
the mark of the second id, the beginning of the name or of the quoted value of an attribute, or the
beginning of a node. -/
theorem compile_failure_points
    {options : CompileOptions}
    (hcompile : compile source file options = .error e) :
    ∃ place, e.position? = some place ∧
      Text.HasAt source.toList place (e.Tells source file) := by
  unfold compile at hcompile
  split at hcompile
  · next hread =>
      cases hcompile
      exact Document.read_failure_points hread
  · next document hread =>
      simp only at hcompile
      split_ifs at hcompile with hvalid
      cases hcompile
      exact Document.validate_failure_points hread (Bool.eq_false_iff.2 hvalid)

/-- A text on the third line, behind a string of two lines and a tab, has a line below it. -/
def crookedSource : String :=
  "div(title: \"two\nlines ☂\")\n\tplain text\n\t\tp.x\n"

def crookedFailure : Failure := .indentation "index" ⟨.nestedUnderText, ⟨4, 3⟩⟩

theorem compile_failure_points_crookedSource :
    compile crookedSource "index" .standard = .error crookedFailure ∧
      crookedFailure.position? = some ⟨4, 3⟩ ∧
      Text.HasAt crookedSource.toList ⟨4, 3⟩ (crookedFailure.Tells crookedSource "index") := by
  have hcompile : compile crookedSource "index" .standard = .error crookedFailure := by
    decide +kernel
  obtain ⟨place, hplace, htells⟩ := compile_failure_points hcompile
  cases hplace
  exact ⟨hcompile, rfl, htells⟩

end BlockMarkup
