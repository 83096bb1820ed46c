import BlockMarkup.Attribute
import BlockMarkup.Proofs.Text.Blank

/-!
# Which attribute values can be read

Only a style can be written wrongly. Its text is a list of declarations if between its semicolons
there is nothing but white space and declarations, and a declaration is a property that is not
blank, a colon, and any value.
-/

namespace BlockMarkup

namespace Style

def IsDeclaration (piece : List Char) : Prop :=
  ∃ property value, piece = property ++ ':' :: value ∧ ':' ∉ property ∧
    ∃ c ∈ property, Text.isBlank c = false

def IsDeclarationList (text : String) : Prop :=
  ∀ piece ∈ Text.splitAt (· = ';') text.toList,
    (∀ c ∈ piece, Text.isBlank c = true) ∨ IsDeclaration piece

/-- A piece is read exactly if it is a declaration. -/
theorem exists_declaration?_iff
    (piece : List Char) :
    (∃ declaration, declaration? piece = some declaration) ↔ IsDeclaration piece := by
  have hsome : ∀ property : List Char,
      Text.dropBlank property ≠ [] ↔ ∃ c ∈ property, Text.isBlank c = false := by
    intro property
    rw [ne_eq, Text.dropBlank_eq_nil_iff]
    simp
  constructor
  · rintro ⟨declaration, hread⟩
    unfold declaration? at hread
    split at hread
    · cases hread
    · next property value hsplit =>
        obtain ⟨hpiece, hcolon⟩ := Text.splitFirst_eq_some_iff.1 hsplit
        refine ⟨property, value, hpiece, hcolon, (hsome property).1 fun hnil => ?_⟩
        simp [hnil] at hread
  · rintro ⟨property, value, rfl, hcolon, hblank⟩
    have hnonempty := (hsome property).2 hblank
    exact ⟨_, by rw [declaration?, Text.splitFirst_append hcolon]; simp [hnonempty]; rfl⟩

/-- White space around a declaration does not matter. -/
theorem isDeclaration_dropBlank_iff
    (piece : List Char) :
    IsDeclaration (Text.dropBlank piece) ↔ IsDeclaration piece := by
  obtain ⟨before, after, hpiece, hbefore, hafter⟩ := Text.exists_append_dropBlank_append piece
  have hcolon : ∀ blanks : List Char, (∀ c ∈ blanks, Text.isBlank c = true) → ':' ∉ blanks :=
    fun blanks hblanks hmem => absurd (hblanks ':' hmem) (by decide)
  constructor
  · rintro ⟨property, value, hinner, hproperty, c, hc, hblank⟩
    refine ⟨before ++ property, value ++ after, ?_, ?_, c, List.mem_append_right before hc, hblank⟩
    · rw [hpiece, hinner]
      simp
    · rw [List.mem_append, not_or]
      exact ⟨hcolon before hbefore, hproperty⟩
  · rintro ⟨property, value, houter, hproperty, c, hc, hblank⟩
    have hmem : ':' ∈ Text.dropBlank piece := by
      have hmem' : ':' ∈ piece := by simp [houter]
      rw [hpiece, List.mem_append, List.mem_append] at hmem'
      exact (hmem'.resolve_left (hcolon before hbefore)).resolve_right (hcolon after hafter)
    cases hinner : Text.splitFirst ':' (Text.dropBlank piece) with
    | none =>
        exact absurd hmem (Text.splitFirst_eq_none_iff.1 hinner)
    | some found =>
        obtain ⟨hfound, hfirst⟩ := Text.splitFirst_eq_some_iff.1 hinner
        -- both ways of cutting the piece are at its first colon
        have hsplit : Text.splitFirst ':' piece = some (before ++ found.1, found.2 ++ after) := by
          refine Text.splitFirst_eq_some_iff.2 ⟨?_, ?_⟩
          · rw [hpiece, hfound]
            simp
          · rw [List.mem_append, not_or]
            exact ⟨hcolon before hbefore, hfirst⟩
        rw [houter, Text.splitFirst_append hproperty, Option.some.injEq, Prod.mk.injEq] at hsplit
        refine ⟨found.1, found.2, hfound, hfirst, c, ?_, hblank⟩
        rw [hsplit.1, List.mem_append] at hc
        refine hc.resolve_left fun hmem => ?_
        rw [hbefore c hmem] at hblank
        cases hblank

/-- Pieces are read exactly if each of them is blank or a declaration. -/
theorem exists_readPieces_iff
    (style : Style)
    (pieces : List (List Char)) :
    (∃ result, readPieces style pieces = .ok result) ↔
      ∀ piece ∈ pieces, (∀ c ∈ piece, Text.isBlank c = true) ∨ IsDeclaration piece := by
  induction pieces generalizing style with
  | nil =>
      simp [readPieces]
  | cons piece pieces ih =>
      rw [List.forall_mem_cons, ← Text.dropBlank_eq_nil_iff, ← isDeclaration_dropBlank_iff,
        ← exists_declaration?_iff, readPieces]
      by_cases hnil : Text.dropBlank piece = []
      · simp [hnil, ih]
      · cases hread : declaration? (Text.dropBlank piece) with
        | none => simp [hnil]
        | some declaration => simp [hnil, ih]

/-- A style can be read if and only if it is a list of declarations. -/
theorem exists_read_iff
    (text : String) :
    (∃ style, read text = .ok style) ↔ IsDeclarationList text :=
  exists_readPieces_iff _ _

end Style

/-- An attribute can be read unless it is a style that is no list of declarations. -/
theorem Attribute.exists_derive_iff
    (name value : String) :
    (∃ derived, derive name value = .ok derived) ↔
      (name = styleName → Style.IsDeclarationList value) := by
  rw [← Style.exists_read_iff]
  unfold derive
  split
  · next hname =>
      cases Style.read value <;> simp [Except.map, hname]
  · next hname =>
      split
      · simp [hname]
      · split <;> simp [hname]

end BlockMarkup
