import BlockMarkup.Proofs.Attribute.Inline

/-!
# What a style keeps of its text

A style is read from the declarations that stand between the semicolons of a text. A property that
is declared more than once has one entry, in the place of its first declaration and with the value
of its last. The line that is written for a style has the same meaning as the text that it was read
from: reading it gives the same entries in the same order.
-/

namespace BlockMarkup

namespace Style

/-- Whether a piece declares a value for a property: the property is what stands before the first
colon, the value what stands behind it, both without the white space around them. -/
structure Declares
    (piece : List Char)
    (d : String × String) : Prop where
  parts : ∃ property value, piece = property ++ ':' :: value ∧ ':' ∉ property ∧
    d.1.toList = Text.dropBlank property ∧ d.2.toList = Text.dropBlank value
  named : d.1 ≠ ""

/-- The pieces of a text between its semicolons that have more than white space. -/
def writtenPieces (text : String) : List (List Char) :=
  (Text.splitAt (· = ';') text.toList).filter fun piece => !piece.all Text.isBlank

/-- A piece that is read declares what it says. -/
theorem declares_of_declaration?
    {piece : List Char}
    {d : String × String}
    (hd : declaration? (Text.dropBlank piece) = some d) :
    Declares piece d := by
  obtain ⟨before, after, hpiece, hbefore, hafter⟩ := Text.exists_append_dropBlank_append piece
  unfold declaration? at hd
  split at hd
  · cases hd
  · next property value hsplit =>
      obtain ⟨hinner, hcolon⟩ := Text.splitFirst_eq_some_iff.1 hsplit
      simp only at hd
      split at hd
      · cases hd
      · next hne =>
          cases hd
          rw [hinner] at hpiece
          refine ⟨⟨before ++ property, value ++ after, by simpa using hpiece, ?_, ?_, ?_⟩, ?_⟩
          · rw [List.mem_append, not_or]
            exact ⟨fun hmem => absurd (hbefore ':' hmem) (by decide), hcolon⟩
          · have hpadded := Text.dropBlank_padded hbefore (List.forall_mem_nil _) property
            rw [List.append_nil] at hpadded
            rw [String.toList_ofList, hpadded]
          · have hpadded := Text.dropBlank_padded (List.forall_mem_nil _) hafter value
            rw [List.nil_append] at hpadded
            rw [String.toList_ofList, hpadded]
          · simpa using hne

/-- Reading inserts the declarations one after another. -/
theorem exists_declared_of_readPieces
    {style result : Style}
    {pieces : List (List Char)}
    (hread : readPieces style pieces = .ok result) :
    ∃ declared,
      List.Forall₂ Declares (pieces.filter fun piece => !piece.all Text.isBlank) declared ∧
      result = declared.foldl (fun style d => style.insert d.1 d.2) style := by
  induction pieces generalizing style with
  | nil =>
      cases hread
      exact ⟨[], List.Forall₂.nil, rfl⟩
  | cons piece pieces ih =>
      have hblank : (Text.dropBlank piece).isEmpty = piece.all Text.isBlank := by
        rw [Bool.eq_iff_iff, List.isEmpty_iff, Text.dropBlank_eq_nil_iff, List.all_eq_true]
      rw [readPieces, hblank] at hread
      split at hread
      · next hall =>
          obtain ⟨declared, hpieces, hresult⟩ := ih hread
          exact ⟨declared, by simpa [hall] using hpieces, hresult⟩
      · next hsome =>
          split at hread
          · cases hread
          · next property value hdeclaration =>
              obtain ⟨declared, hpieces, hresult⟩ := ih hread
              refine ⟨(property, value) :: declared, ?_, hresult⟩
              rw [List.filter_cons_of_pos (by simpa using hsome)]
              exact List.Forall₂.cons (declares_of_declaration? hdeclaration) hpieces

/-- A style that was read is read again from the line that is written for it. Its properties are
those declared in the text, each once and in the order of first declaration, and each has the value
that was declared last. -/
theorem read_keeps_declarations
    {text : String}
    {style : Style}
    (hread : read text = .ok style) :
    read style.inline = .ok style ∧
      ∃ declared, List.Forall₂ Declares (writtenPieces text) declared ∧
        FirstUses (declared.map Prod.fst) style.keys ∧
        ∀ property, style.get? property = declared.reverse.lookup property := by
  obtain ⟨declared, hpieces, hstyle⟩ := exists_declared_of_readPieces hread
  have hinserted : style = Dict.ofList declared := hstyle
  refine ⟨read_inline (wellFormed_of_read hread), declared, hpieces, ?_, fun property => ?_⟩
  · rw [hinserted]
    exact Dict.firstUses_keys_ofList declared
  · rw [hinserted, Dict.get?_ofList]

/-- A property twice, a value with a colon, an empty value, and white space that is more than
blanks. -/
def redeclaredText : String := " color : red;; background: url(a:b) ; color:blue\n;margin:; "

theorem read_keeps_declarations_redeclaredText :
    ∃ style, read redeclaredText = .ok style ∧
      style.entries = [("color", "blue"), ("background", "url(a:b)"), ("margin", "")] ∧
      read style.inline = .ok style ∧
      ∃ declared, List.Forall₂ Declares (writtenPieces redeclaredText) declared ∧
        FirstUses (declared.map Prod.fst) style.keys ∧
        ∀ property, style.get? property = declared.reverse.lookup property := by
  have hread : read redeclaredText =
      .ok (.ofList [("color", "blue"), ("background", "url(a:b)"), ("margin", "")]) := by
    decide +kernel
  exact ⟨_, hread, rfl, read_keeps_declarations hread⟩

end Style

end BlockMarkup
