import BlockMarkup.Proofs.Page.SourceMap

/-!
# Looking things up in source maps

A source map is searched from one end to the first entry that fits. The entries of the source map of
a page come in the order of their places in the page, so the entry that fits first is the one that
is closest to what was asked for.
-/

namespace BlockMarkup

section OrderedSearch

variable {α : Type} {R : α → α → Prop} {p : α → Bool} {as : List α} {a b : α}

/-- Items that fit come behind the one that is found. -/
theorem eq_or_rel_of_find?
    (has : as.Pairwise R)
    (ha : as.find? p = some a)
    (hb : b ∈ as)
    (hfits : p b = true) :
    b = a ∨ R a b := by
  obtain ⟨-, front, back, rfl, hfront⟩ := List.find?_eq_some_iff_append.1 ha
  rw [List.pairwise_append, List.pairwise_cons] at has
  rcases List.mem_append.1 hb with hb | hb
  · have hnot := hfront b hb
    rw [hfits] at hnot
    cases hnot
  · exact (List.mem_cons.1 hb).imp_right (has.2.1.1 b)

/-- In an ordered list, the first item that fits is the one that no other item that fits comes
before. -/
theorem find?_eq_some_iff_of_pairwise
    (has : as.Pairwise R)
    (hasymm : ∀ a b, R a b → ¬ R b a) :
    as.find? p = some a ↔ a ∈ as ∧ p a = true ∧ ∀ b ∈ as, p b = true → ¬ R b a := by
  constructor
  · intro ha
    refine ⟨List.mem_of_find?_eq_some ha, List.find?_some ha, fun b hb hfits hba => ?_⟩
    rcases eq_or_rel_of_find? has ha hb hfits with rfl | hab
    · exact hasymm b b hba hba
    · exact hasymm a b hab hba
  · rintro ⟨ha, hfits, hfirst⟩
    obtain ⟨c, hc⟩ := Option.isSome_iff_exists.1 (List.find?_isSome.2 ⟨a, ha, hfits⟩)
    rcases eq_or_rel_of_find? has hc ha hfits with rfl | hca
    · exact hc
    · exact absurd hca (hfirst c (List.mem_of_find?_eq_some hc) (List.find?_some hc))

end OrderedSearch

theorem Position.Before.asymm
    {p q : Position}
    (hpq : p.Before q) :
    ¬ q.Before p := by
  unfold Before at *
  omega

namespace SourceMap

/-- Of the entries on the line of a place that do not start behind it, the one with the greatest
column. -/
structure IsNearest (m : SourceMap) (place : Position) (e : Mapping) : Prop where
  mem : e ∈ m.mappings
  line : e.generated.line = place.line
  column : e.generated.column ≤ place.column
  greatest : ∀ other ∈ m.mappings, other.generated.line = place.line →
    other.generated.column ≤ place.column → other.generated.column ≤ e.generated.column

/-- Of the entries on a line, the one with the least column. -/
structure IsLeftmost (m : SourceMap) (number : Nat) (e : Mapping) : Prop where
  mem : e ∈ m.mappings
  line : e.generated.line = number
  least : ∀ other ∈ m.mappings, other.generated.line = number →
    e.generated.column ≤ other.generated.column

variable {m : SourceMap}

/-- A place is looked up in the nearest entry on its line. -/
theorem originAt_eq_some_iff
    (hm : m.mappings.Pairwise fun a b => a.generated.Before b.generated)
    (place origin : Position) :
    m.originAt place = some origin ↔ ∃ e, m.IsNearest place e ∧ e.origin = origin := by
  -- Read from the end, the entries come in the opposite order.
  have hreversed : m.mappings.reverse.Pairwise fun a b => b.generated.Before a.generated :=
    List.pairwise_reverse.2 hm
  rw [originAt, Option.map_eq_some_iff]
  refine exists_congr fun e => and_congr_left fun _ => ?_
  rw [find?_eq_some_iff_of_pairwise hreversed fun a b => Position.Before.asymm]
  simp only [List.mem_reverse, Bool.and_eq_true, decide_eq_true_eq, Position.Before]
  constructor
  · rintro ⟨hmem, ⟨hline, hcolumn⟩, hlast⟩
    refine ⟨hmem, hline, hcolumn, fun other hother hline' hcolumn' => ?_⟩
    have hnot := hlast other hother ⟨hline', hcolumn'⟩
    omega
  · rintro ⟨hmem, hline, hcolumn, hgreatest⟩
    refine ⟨hmem, ⟨hline, hcolumn⟩, fun other hother hfits => ?_⟩
    have hle := hgreatest other hother hfits.1 hfits.2
    omega

theorem originAt_eq_none_iff
    (place : Position) :
    m.originAt place = none ↔
      ∀ e ∈ m.mappings, e.generated.line = place.line → place.column < e.generated.column := by
  rw [originAt, Option.map_eq_none_iff, List.find?_eq_none]
  simp

/-- A place at which an entry starts is led back by that entry. -/
theorem originAt_generated
    (hm : m.mappings.Pairwise fun a b => a.generated.Before b.generated)
    {e : Mapping}
    (he : e ∈ m.mappings) :
    m.originAt e.generated = some e.origin :=
  (originAt_eq_some_iff hm _ _).2
    ⟨e, ⟨he, rfl, Nat.le_refl _, fun _ _ _ hcolumn => hcolumn⟩, rfl⟩

theorem originOfLine_eq_some_iff
    (hm : m.mappings.Pairwise fun a b => a.generated.Before b.generated)
    (line : Nat)
    (origin : Position) :
    m.originOfLine line = some origin ↔ ∃ e, m.IsLeftmost line e ∧ e.origin = origin := by
  rw [originOfLine, Option.map_eq_some_iff]
  refine exists_congr fun e => and_congr_left fun _ => ?_
  rw [find?_eq_some_iff_of_pairwise hm fun a b => Position.Before.asymm]
  simp only [decide_eq_true_eq, Position.Before]
  constructor
  · rintro ⟨hmem, hline, hfirst⟩
    refine ⟨hmem, hline, fun other hother hline' => ?_⟩
    have hnot := hfirst other hother hline'
    omega
  · rintro ⟨hmem, hline, hleast⟩
    refine ⟨hmem, hline, fun other hother hline' => ?_⟩
    have hle := hleast other hother hline'
    omega

theorem originOfLine_eq_none_iff
    (line : Nat) :
    m.originOfLine line = none ↔ ∀ e ∈ m.mappings, e.generated.line ≠ line := by
  rw [originOfLine, Option.map_eq_none_iff, List.find?_eq_none]
  simp

end SourceMap

namespace Document

/-- Looking up a place in the source map of a page gives the source of the entry that is nearest on
its line, and nothing if no entry starts there or further left. So each entry leads back to its own
source. Looking up a line gives the source of its leftmost entry, and nothing if it has none. -/
theorem sourceMap_lookups_are_exact
    (document : Document)
    (file : String) :
    (∀ place origin, (document.sourceMap file).originAt place = some origin ↔
        ∃ e, (document.sourceMap file).IsNearest place e ∧ e.origin = origin) ∧
      (∀ place, (document.sourceMap file).originAt place = none ↔
        ∀ e ∈ (document.sourceMap file).mappings, e.generated.line = place.line →
          place.column < e.generated.column) ∧
      (∀ e ∈ (document.sourceMap file).mappings,
        (document.sourceMap file).originAt e.generated = some e.origin) ∧
      (∀ line origin, (document.sourceMap file).originOfLine line = some origin ↔
        ∃ e, (document.sourceMap file).IsLeftmost line e ∧ e.origin = origin) ∧
      ∀ line, (document.sourceMap file).originOfLine line = none ↔
        ∀ e ∈ (document.sourceMap file).mappings, e.generated.line ≠ line := by
  have hordered : (document.sourceMap file).mappings.Pairwise fun a b =>
      a.generated.Before b.generated := by
    rw [mappings_sourceMap]
    exact (Page.displays_fragments document file).pairwise_mappings Position.start
  exact ⟨SourceMap.originAt_eq_some_iff hordered, SourceMap.originAt_eq_none_iff,
    fun e he => SourceMap.originAt_generated hordered he,
    SourceMap.originOfLine_eq_some_iff hordered, SourceMap.originOfLine_eq_none_iff⟩

/-- Two elements, the second with a text on the same line of the page. -/
def nestedPage : Document :=
  [.element ⟨"div", some "top", [], .empty, ⟨1, 1⟩, none⟩
    [.element ⟨"p", none, ["a"], .empty, ⟨2, 3⟩, none⟩ [.text ⟨"a < b", ⟨3, 5⟩, none⟩]]]

theorem sourceMap_lookups_are_exact_nestedPage :
    (nestedPage.sourceMap "page").mappings.map (fun m => (m.generated, m.origin)) =
        [(⟨11, 3⟩, ⟨1, 1⟩), (⟨12, 5⟩, ⟨2, 3⟩), (⟨12, 18⟩, ⟨3, 5⟩)] ∧
      (nestedPage.sourceMap "page").originAt ⟨12, 17⟩ = some ⟨2, 3⟩ ∧
      (nestedPage.sourceMap "page").originAt ⟨12, 20⟩ = some ⟨3, 5⟩ ∧
      (nestedPage.sourceMap "page").originAt ⟨12, 4⟩ = none ∧
      (nestedPage.sourceMap "page").originOfLine 12 = some ⟨2, 3⟩ ∧
      (nestedPage.sourceMap "page").originOfLine 13 = none ∧
      ∃ e, (nestedPage.sourceMap "page").IsNearest ⟨12, 20⟩ e ∧ e.origin = ⟨3, 5⟩ := by
  have hfound : (nestedPage.sourceMap "page").originAt ⟨12, 20⟩ = some ⟨3, 5⟩ := by decide +kernel
  exact ⟨by decide +kernel, by decide +kernel, hfound, by decide +kernel, by decide +kernel,
    by decide +kernel, ((sourceMap_lookups_are_exact nestedPage "page").1 _ _).1 hfound⟩

end Document

end BlockMarkup
