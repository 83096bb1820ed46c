import BlockMarkup.Proofs.Node.Acceptance
import BlockMarkup.Proofs.Text.Place

/-!
# Inline styles are read back

What reading a style has left of its declarations can be written on one line and read again: no
property has a colon, neither side has a semicolon or white space around it, and every property
comes once. So the text of an inline style stands for the declarations that it was made from, in
order.
-/

namespace BlockMarkup

theorem Text.not_mem_of_mem_splitAt
    {c : Char}
    {cs piece : List Char}
    (hpiece : piece ∈ splitAt (· = c) cs) :
    c ∉ piece := by
  induction cs generalizing piece with
  | nil =>
      rw [splitAt, List.mem_singleton] at hpiece
      rw [hpiece]
      exact List.not_mem_nil
  | cons d cs ih =>
      by_cases hd : d = c
      · simp only [splitAt, hd, decide_true, if_true, List.mem_cons] at hpiece
        rcases hpiece with rfl | hpiece
        · exact List.not_mem_nil
        · exact ih hpiece
      · obtain ⟨first, pieces, hcs⟩ := List.exists_cons_of_ne_nil (splitAt_ne_nil (· = c) cs)
        rw [splitAt_cons_of_neg (decide_eq_false hd) hcs, List.mem_cons] at hpiece
        rcases hpiece with rfl | hpiece
        · rw [List.mem_cons, not_or]
          exact ⟨Ne.symm hd, ih (hcs ▸ List.mem_cons_self)⟩
        · exact ih (hcs ▸ List.mem_cons_of_mem _ hpiece)

theorem Text.dropBlank_dropBlank
    (cs : List Char) :
    dropBlank (dropBlank cs) = dropBlank cs := by
  obtain ⟨before, after, hcs, hbefore, hafter⟩ := exists_append_dropBlank_append cs
  conv_rhs => rw [hcs, dropBlank_padded hbefore hafter]

theorem Text.subset_dropBlank
    (cs : List Char) :
    dropBlank cs ⊆ cs := by
  obtain ⟨before, after, hcs, -, -⟩ := exists_append_dropBlank_append cs
  intro c hc
  rw [hcs]
  exact List.mem_append_right _ (List.mem_append_left _ hc)

/-- What is left without the white space around it neither begins nor ends with any. -/
theorem Text.ends_of_dropBlank_eq_self
    {cs : List Char}
    (h : dropBlank cs = cs) :
    (∀ c ∈ cs.head?, isBlank c = false) ∧ ∀ c ∈ cs.getLast?, isBlank c = false := by
  have hhead : ∀ {ds : List Char},
      ds.dropWhile isBlank = ds → ∀ c ∈ ds.head?, isBlank c = false := by
    intro ds hds c hc
    have hnot := List.head?_dropWhile_not isBlank ds
    rw [hds, hc] at hnot
    simpa using hnot
  have hstart : cs.dropWhile isBlank = cs := by
    obtain ⟨blanks, hblanks, -⟩ := exists_dropBlankEnd_append (cs.dropWhile isBlank)
    have hlength := congrArg List.length hblanks
    rw [List.length_append, ← dropBlank, h] at hlength
    exact (List.dropWhile_suffix _).eq_of_length_le (by omega)
  have hend : cs.reverse.dropWhile isBlank = cs.reverse := by
    rw [dropBlank, hstart, dropBlankEnd] at h
    rw [← List.reverse_reverse (cs.reverse.dropWhile isBlank), h]
  refine ⟨hhead hstart, ?_⟩
  rw [← List.head?_reverse]
  exact hhead hend

namespace Style

/-- A declaration that reads as itself: its property comes before the first colon, and no white
space would be dropped. -/
structure IsTrimmed (d : String × String) : Prop where
  property_ne : d.1.toList ≠ []
  property_trim : Text.dropBlank d.1.toList = d.1.toList
  value_trim : Text.dropBlank d.2.toList = d.2.toList
  colon : ':' ∉ d.1.toList
  semicolon : ';' ∉ d.1.toList ∧ ';' ∉ d.2.toList

/-- Whether a style can be written on one line and read again. -/
structure WellFormed (style : Style) : Prop where
  nodup : style.keys.Nodup
  trimmed : ∀ d ∈ style.entries, IsTrimmed d

theorem isTrimmed_of_declaration?
    {piece : List Char}
    (hpiece : ';' ∉ piece)
    {d : String × String}
    (hd : declaration? piece = some d) :
    IsTrimmed d := by
  unfold declaration? at hd
  split at hd
  · cases hd
  · next property value hsplit =>
      obtain ⟨rfl, hcolon⟩ := Text.splitFirst_eq_some_iff.1 hsplit
      simp only at hd
      split at hd
      · cases hd
      · next hne =>
          cases hd
          rw [List.mem_append, List.mem_cons, not_or, not_or] at hpiece
          constructor <;> simp only [String.toList_ofList]
          · exact fun hnil => hne (List.isEmpty_iff.2 hnil)
          · exact Text.dropBlank_dropBlank property
          · exact Text.dropBlank_dropBlank value
          · exact fun hmem => hcolon (Text.subset_dropBlank property hmem)
          · exact ⟨fun hmem => hpiece.1 (Text.subset_dropBlank property hmem),
              fun hmem => hpiece.2.2 (Text.subset_dropBlank value hmem)⟩

/-- Reading one declaration after another keeps a style well-formed. -/
theorem wellFormed_readPieces
    {style result : Style}
    {pieces : List (List Char)}
    (hstyle : style.WellFormed)
    (hpieces : ∀ piece ∈ pieces, ';' ∉ piece)
    (hread : readPieces style pieces = .ok result) :
    result.WellFormed := by
  induction pieces generalizing style with
  | nil =>
      cases hread
      exact hstyle
  | cons piece pieces ih =>
      rw [List.forall_mem_cons] at hpieces
      simp only [readPieces] at hread
      split at hread
      · exact ih hstyle hpieces.2 hread
      · split at hread
        · cases hread
        · next property value hdeclaration =>
            refine ih ⟨Dict.nodup _, fun d hd => ?_⟩ hpieces.2 hread
            rcases Dict.mem_entries_insert hd with rfl | hd
            · exact isTrimmed_of_declaration?
                (fun hmem => hpieces.1 (Text.subset_dropBlank piece hmem)) hdeclaration
            · exact hstyle.trimmed d hd

/-- A style that is read is well-formed. -/
theorem wellFormed_of_read
    {text : String}
    {style : Style}
    (hread : read text = .ok style) :
    style.WellFormed := by
  exact wellFormed_readPieces ⟨Dict.nodup _, List.forall_mem_nil _⟩
    (fun piece => Text.not_mem_of_mem_splitAt) hread

/-- A declaration as it stands in a start tag, without its semicolon. -/
def written (d : String × String) : List Char := d.1.toList ++ ':' :: d.2.toList

/-- A declaration is read back from what is written for it. -/
theorem declaration?_written
    {d : String × String}
    (hd : IsTrimmed d) :
    Text.dropBlank (written d) = written d ∧ declaration? (written d) = some d := by
  obtain ⟨hfirst, -⟩ := Text.ends_of_dropBlank_eq_self hd.property_trim
  obtain ⟨-, hlast⟩ := Text.ends_of_dropBlank_eq_self hd.value_trim
  refine ⟨Text.dropBlank_eq_self (fun c hc => ?_) (fun c hc => ?_), ?_⟩
  · rw [written, List.head?_append_of_ne_nil _ hd.property_ne] at hc
    exact hfirst c hc
  · rw [written, List.getLast?_append_of_ne_nil _ (List.cons_ne_nil _ _)] at hc
    cases hvalue : d.2.toList with
    | nil =>
        rw [hvalue] at hc
        cases hc
        decide
    | cons e es =>
        rw [List.getLast?_cons_of_ne_nil (by rw [hvalue]; exact List.cons_ne_nil e es)] at hc
        exact hlast c hc
  · rw [declaration?, written, Text.splitFirst_append hd.colon]
    simp only [hd.property_trim, hd.value_trim, List.isEmpty_iff, hd.property_ne, if_false,
      String.ofList_toList]

/-- Declarations with properties of their own are read back one after another. -/
theorem readPieces_written
    {style : Style}
    {ds : List (String × String)}
    (hds : ∀ d ∈ ds, IsTrimmed d)
    (hkeys : (style.keys ++ ds.map Prod.fst).Nodup) :
    ∃ result : Style, readPieces style (ds.map written ++ [[]]) = .ok result ∧
      result.entries = style.entries ++ ds := by
  induction ds generalizing style with
  | nil =>
      exact ⟨style, by simp [readPieces, Text.dropBlank, Text.dropBlankEnd], by simp⟩
  | cons d ds ih =>
      rw [List.forall_mem_cons] at hds
      obtain ⟨htrim, hdeclaration⟩ := declaration?_written hds.1
      have hkey : d.1 ∉ style.keys := fun hmem =>
        List.disjoint_of_nodup_append hkeys hmem List.mem_cons_self
      have hrest : ((style.insert d.1 d.2).keys ++ ds.map Prod.fst).Nodup := by
        simpa [Dict.keys_insert_of_not_mem hkey] using hkeys
      have hne : written d ≠ [] := by
        simp [written]
      obtain ⟨result, hresult, hentries⟩ := ih hds.2 hrest
      rw [Dict.entries_insert_of_not_mem hkey, List.append_assoc] at hentries
      refine ⟨result, ?_, hentries⟩
      rw [List.map_cons, List.cons_append, readPieces]
      simp only [htrim, hdeclaration, List.isEmpty_iff, hne, if_false, hresult]

theorem toList_inline
    (style : Style) :
    style.inline.toList = (style.entries.map written).flatMap (· ++ [';']) := by
  rw [inline]
  induction style.entries with
  | nil =>
      rfl
  | cons d ds ih =>
      rw [List.foldr_cons, String.toList_append, ih]
      simp [written]

/-- A style that was read is read again from its inline form. -/
theorem read_inline
    {style : Style}
    (hstyle : style.WellFormed) :
    read style.inline = .ok style := by
  have hpieces : (style.entries.map written).flatMap (Text.splitAt (· = ';')) =
      style.entries.map written := by
    rw [List.flatMap_map, List.map_eq_flatMap]
    refine List.flatMap_congr fun d hd => Text.splitAt_eq_singleton ?_
    have htrimmed := hstyle.trimmed d hd
    simp [written, htrimmed.semicolon]
  have hkeys : ((Dict.empty : Style).keys ++ style.entries.map Prod.fst).Nodup := hstyle.nodup
  have hempty : Text.splitAt (· = ';') [] = [[]] := rfl
  obtain ⟨result, hresult, hentries⟩ := readPieces_written hstyle.trimmed hkeys
  rw [read, toList_inline, ← List.append_nil (List.flatMap _ _), Text.splitAt_flatMap_append,
    hpieces, hempty, hresult]
  exact congrArg Except.ok (Dict.ext hentries)

end Style

/-- The value of an attribute is a well-formed style if it is a style at all. -/
theorem Attribute.Suits.wellFormed
    {name : String}
    {declarations : Style}
    (hsuits : Suits name (.style declarations)) :
    declarations.WellFormed := by
  obtain ⟨written, hderive⟩ := hsuits
  unfold derive at hderive
  split_ifs at hderive
  · cases hread : Style.read written with
    | error e =>
        simp [hread, Except.map] at hderive
    | ok found =>
        simp only [hread, Except.map, Except.ok.injEq, Attribute.style.injEq] at hderive
        exact hderive ▸ Style.wellFormed_of_read hread
  · cases hderive
  · cases hderive
  · cases hderive

end BlockMarkup
