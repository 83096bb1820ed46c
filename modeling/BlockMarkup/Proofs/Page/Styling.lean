import BlockMarkup.Proofs.Attribute.Inline
import BlockMarkup.Proofs.Node.LineMarkers
import BlockMarkup.Proofs.Page.Shown
import BlockMarkup.Proofs.Text.Words

/-!
# Page and stylesheet agree on styles

An element that is styled or animated has its declarations in one place. Either it has an anchor:
then its start tag shows the id or the class of the anchor and no style, and the stylesheet has a
rule with the anchor's selector and all its declarations. Or it has none: then its start tag shows
the style, and the stylesheet has no rule for it. Page and stylesheet decide this apart from each
other.

The classes that anchors make up are told apart by the places of their elements, and no two elements
stand at the same place.
-/

namespace BlockMarkup

namespace Anchor

theorem toList_toString
    (n : Nat) :
    (toString n).toList = Nat.toDigits 10 n := by
  simp [Nat.repr]

theorem hyphen_not_mem_toString
    (n : Nat) :
    '-' ∉ (toString n).toList := by
  rw [toList_toString]
  intro hmem
  exact absurd (Nat.isDigit_of_mem_toDigits (by decide) (by decide) hmem) (by decide)

theorem eq_of_toString_eq
    {m n : Nat}
    (h : (toString m).toList = (toString n).toList) :
    m = n := by
  rw [toList_toString, toList_toString] at h
  calc m
    _ = Nat.ofDigitChars 10 (Nat.toDigits 10 m) 0 := Nat.ofDigitChars_ten_toDigits.symm
    _ = Nat.ofDigitChars 10 (Nat.toDigits 10 n) 0 := by rw [h]
    _ = n := Nat.ofDigitChars_ten_toDigits

/-- The class of a place tells the place. -/
theorem classAt_injective : Function.Injective classAt := by
  intro p q h
  have hchars := congrArg String.toList h
  simp only [classAt, String.toList_append, List.append_assoc] at hchars
  obtain ⟨hline, hcolumn⟩ := Page.append_cons_inj (hyphen_not_mem_toString p.line)
    (hyphen_not_mem_toString q.line) (List.append_cancel_left hchars)
  have hp : p = ⟨p.line, p.column⟩ := rfl
  rw [hp, eq_of_toString_eq hline, eq_of_toString_eq hcolumn]

end Anchor

namespace Header

variable {h : Header}

/-! ## What a start tag shows of a style -/

theorem isIdentifier_of_mem_classes
    (herrors : h.errors = [])
    {name : String}
    (hname : name ∈ h.classes) :
    isIdentifier name = true := by
  simp only [errors, List.append_eq_nil_iff] at herrors
  have hnone := List.flatMap_eq_nil_iff.1 herrors.1.2 name hname
  by_contra hnot
  simp [hnot] at hnone

/-- A class that is shown is a word. -/
theorem isWord_of_mem_shownClasses
    (herrors : h.errors = [])
    {name : String}
    (hname : name ∈ h.shownClasses) :
    Text.IsWord name.toList := by
  rw [shownClasses, List.mem_append] at hname
  rcases hname with hname | hname
  · obtain ⟨first, rest, hlist, -, hchars⟩ :=
      exists_of_isIdentifier (isIdentifier_of_mem_classes herrors hname)
    exact ⟨by rw [hlist]; exact List.cons_ne_nil first rest,
      fun c hc => isBlank_of_isIdentifierChar (hchars c hc)⟩
  · split at hname
    · rw [List.mem_singleton.1 hname]
      exact ⟨by simp [Anchor.classAt],
        fun c hc => isBlank_of_isIdentifierChar (isIdentifierChar_of_mem_classAt h.position c hc)⟩
    · cases hname

theorem lookup_id
    {id : String}
    (hid : h.id = some id) :
    h.shownAttributes.lookup "id" = some id := by
  simp [shownAttributes, hid]

/-- The words of the class attribute are the classes that are shown. -/
theorem lookup_class
    (herrors : h.errors = [])
    (hne : h.shownClasses ≠ []) :
    ∃ value, h.shownAttributes.lookup "class" = some value ∧ Text.words value = h.shownClasses := by
  refine ⟨Text.join " " h.shownClasses, ?_,
    Text.words_join fun name hname => isWord_of_mem_shownClasses herrors hname⟩
  have hid : (h.id.toList.map fun id => ("id", id)).lookup "class" = none := by
    rw [List.lookup_eq_none_iff, List.forall_mem_map]
    exact fun id _ => by simp
  rw [shownAttributes, List.lookup_append, List.lookup_append, hid, if_neg hne]
  simp

theorem shownName_eq_style_iff
    (name : String) :
    Attribute.shownName name = "style" ↔ name = "style" := by
  unfold Attribute.shownName
  split_ifs with hcall hdata
  · simp [hcall]
  · simp [hdata]
  · rfl

theorem lookup_style_front
    (h : Header) :
    (h.id.toList.map (fun id => ("id", id)) ++
      if h.shownClasses = [] then []
      else [("class", Text.join " " h.shownClasses)]).lookup "style" =
        none := by
  rw [List.lookup_append, List.lookup_eq_none_iff.2]
  · split <;> rfl
  · rw [List.forall_mem_map]
    exact fun id _ => by simp

/-- An element with an anchor shows no style. -/
theorem lookup_style_of_isAnchored
    (hanchored : h.isAnchored = true) :
    h.shownAttributes.lookup "style" = none := by
  rw [shownAttributes, List.lookup_append, lookup_style_front, Option.none_or,
    List.lookup_eq_none_iff, List.forall_mem_map]
  intro entry hentry
  have hkept := (List.mem_filter.1 hentry).2
  rw [bne_iff_ne]
  intro hname
  have hstyle := (shownName_eq_style_iff entry.1).1 hname.symm
  simp [leavesOut, hstyle, hanchored] at hkept

/-- An element without an anchor shows its style. -/
theorem lookup_style_of_not_isAnchored
    (hanchored : h.isAnchored = false)
    {style : Style}
    (hstyle : h.style = some style)
    (hne : style.isEmpty = false) :
    h.shownAttributes.lookup "style" = some style.inline := by
  obtain ⟨before, after, hentries, hbefore⟩ := List.lookup_eq_some_iff.1 (get?_of_style hstyle)
  have hkept : h.leavesOut ("style", .style style) = false := by
    rw [leavesOut_style, hanchored, hne]
    rfl
  have hnone : ((before.filter fun entry => !h.leavesOut entry).map fun entry =>
      (Attribute.shownName entry.1, entry.2.shownText)).lookup "style" = none := by
    rw [List.lookup_eq_none_iff, List.forall_mem_map]
    intro entry hentry
    have hname := bne_iff_ne.1 (hbefore entry (List.mem_of_mem_filter hentry))
    rw [bne_iff_ne]
    exact fun heq => hname ((shownName_eq_style_iff entry.1).1 heq.symm).symm
  have hshown : Attribute.shownName "style" = "style" := (shownName_eq_style_iff "style").2 rfl
  rw [shownAttributes, List.lookup_append, lookup_style_front, Option.none_or, hentries,
    List.filter_append, List.map_append, List.lookup_append, hnone, Option.none_or]
  simp [Attribute.styleName, hkept, hshown, Attribute.shownText]

/-! ## One place for each declaration -/

/-- Whether the declarations of an element stand in one place, told from the attributes in its start
tag and from its rule. With an anchor, they are in the rule and the tag shows the anchor; without
one, the tag shows a style that is read as the declarations, and there is no rule. -/
def IsStyledBy
    (h : Header)
    (attributes : List (String × String))
    (rule : Option Css.Item) : Prop :=
  match h.anchor with
  | some (.ofId id) =>
    attributes.lookup "id" = some id ∧ attributes.lookup "style" = none ∧
      rule = some (.block ("#" ++ id) h.ruleItems)
  | some (.ofClass name) =>
    (∃ value, attributes.lookup "class" = some value ∧ name ∈ Text.words value) ∧
      attributes.lookup "style" = none ∧ rule = some (.block ("." ++ name) h.ruleItems)
  | none =>
    (∃ value style, attributes.lookup "style" = some value ∧ Style.read value = .ok style ∧
      h.style = some style ∧ h.animation = none) ∧ rule = none

/-- The rule of an element as it is read. -/
def ruleItem? (h : Header) : Option Css.Item :=
  h.anchor.map fun anchor => .block anchor.selector h.ruleItems

theorem isAnchored_of_anchor
    {anchor : Anchor}
    (hanchor : h.anchor = some anchor) :
    h.isAnchored = true := by
  rw [isAnchored_eq_isSome, hanchor, Option.isSome_some]

theorem id_of_anchor
    {id : String}
    (hanchor : h.anchor = some (.ofId id)) :
    h.id = some id := by
  unfold anchor at hanchor
  split at hanchor
  · split at hanchor
    · next found hid =>
        cases hanchor
        exact hid
    · split at hanchor <;> cases hanchor
  · cases hanchor

/-- An anchor that is a class is named for the place of its element. -/
theorem class_of_anchor
    {name : String}
    (hanchor : h.anchor = some (.ofClass name)) :
    name = Anchor.classAt h.position := by
  unfold anchor at hanchor
  split at hanchor
  · split at hanchor
    · cases hanchor
    · split at hanchor
      · cases hanchor
        rfl
      · cases hanchor
  · cases hanchor

/-- Only a style stays in its start tag. -/
theorem style_of_anchor
    (hdeclared : h.isStyled = true ∨ h.isAnimated = true)
    (hanchor : h.anchor = none) :
    h.isAnchored = false ∧ h.animation = none ∧
      ∃ style, h.style = some style ∧ style.isEmpty = false := by
  have hanchored : h.isAnchored = false := by
    rw [isAnchored_eq_isSome, hanchor, Option.isSome_none]
  have hanimated : h.isAnimated = false := (Bool.or_eq_false_iff.1 hanchored).1
  have hstyled : h.isStyled = true := hdeclared.resolve_right (by simp [hanimated])
  refine ⟨hanchored, by simpa [isAnimated] using hanimated, ?_⟩
  unfold isStyled at hstyled
  split at hstyled
  · next style hstyle =>
      exact ⟨style, hstyle, by simpa using hstyled⟩
  · cases hstyled

/-- The style of an element that was read is well-formed. -/
theorem wellFormed_of_style
    (hsuits : ∀ entry ∈ h.attributes.entries, Attribute.Suits entry.1 entry.2)
    {style : Style}
    (hstyle : h.style = some style) :
    style.WellFormed := by
  obtain ⟨before, after, hentries, -⟩ := List.lookup_eq_some_iff.1 (get?_of_style hstyle)
  exact (hsuits (Attribute.styleName, .style style) (by simp [hentries])).wellFormed

/-- The declarations of an element without errors stand in one place. -/
theorem isStyledBy_shownAttributes
    (hsuits : ∀ entry ∈ h.attributes.entries, Attribute.Suits entry.1 entry.2)
    (herrors : h.errors = [])
    (hdeclared : h.isStyled = true ∨ h.isAnimated = true) :
    h.IsStyledBy h.shownAttributes h.ruleItem? := by
  unfold IsStyledBy ruleItem?
  split
  · next id hanchor =>
      exact ⟨lookup_id (id_of_anchor hanchor),
        lookup_style_of_isAnchored (isAnchored_of_anchor hanchor), by rw [hanchor]; rfl⟩
  · next name hanchor =>
      have hclasses : h.shownClasses = h.classes ++ [name] := by
        rw [shownClasses_eq, hanchor]
      obtain ⟨value, hvalue, hwords⟩ := lookup_class herrors (by simp [hclasses])
      refine ⟨⟨value, hvalue, ?_⟩, lookup_style_of_isAnchored (isAnchored_of_anchor hanchor),
        by rw [hanchor]; rfl⟩
      rw [hwords, hclasses]
      exact List.mem_append_right _ List.mem_cons_self
  · next hanchor =>
      obtain ⟨hanchored, hanimation, style, hstyle, hne⟩ := style_of_anchor hdeclared hanchor
      have hread := Style.read_inline (wellFormed_of_style hsuits hstyle)
      have hlookup := lookup_style_of_not_isAnchored hanchored hstyle hne
      exact ⟨⟨style.inline, style, hlookup, hread, hstyle, hanimation⟩, by rw [hanchor]; rfl⟩

end Header

namespace Page

/-- Whether a start tag is read, in the only way in which it can be, as a tag with attributes. -/
def ReadsAsTag
    (chars : List Char)
    (tag : String)
    (attributes : List (String × String)) : Prop :=
  ∃ split, Splits chars split ∧ (∀ other, Splits chars other → other = split) ∧
    split.1 = tag.toList ∧
    split.2.map (fun pair => (String.ofList pair.1, String.ofList (unescape pair.2))) = attributes

/-- A start tag is read as the tag of its element and the attributes that are shown. -/
theorem readsAsTag_startChars
    {header : Header}
    {children : List Node}
    (hclean : (Node.element header children).Clean) :
    ReadsAsTag (startChars header) header.tag header.shownAttributes := by
  refine ⟨_, splits_startChars hclean, fun other => (splits_startChars hclean).unique, rfl, ?_⟩
  rw [writtenPairs, List.map_map]
  simp [Function.comp_def, unescape_escape]

end Page

theorem Node.position_of_header?
    {n : Node}
    {header : Header}
    (hheader : n.header? = some header) :
    n.position = header.position := by
  cases n with
  | element found children =>
      cases hheader
      rfl
  | text t =>
      cases hheader

/-- The elements of a document stand at different places, so no two have the same class for an
anchor. -/
theorem Document.classAnchors_differ
    {source file : String}
    {document : Document}
    (hread : Document.read source file = .ok document) :
    document.headers.Pairwise fun g h => ∀ a b,
      g.anchor = some (.ofClass a) → h.anchor = some (.ofClass b) →
        Anchor.selector (.ofClass a) ≠ Anchor.selector (.ofClass b) := by
  have hordered := read_ordered hread
  rw [headers, List.pairwise_filterMap]
  refine hordered.imp fun {n later} hbefore g hg h hh a b ha hb hsame => ?_
  have hplaces : g.position = h.position := by
    apply Anchor.classAt_injective
    rw [← Header.class_of_anchor ha, ← Header.class_of_anchor hb]
    exact String.append_right_inj "." |>.1 hsame
  rw [Node.position_of_header? hg, Node.position_of_header? hh, hplaces] at hbefore
  exact absurd hbefore (by simp [Position.Before])

/-- Page and stylesheet agree on every element that is styled or animated and that the page shows:
its declarations stand in one place, and the two are tied together by its anchor. Two elements never
have the same class for an anchor. -/
theorem compile_keeps_styles_in_one_place
    {source file : String}
    {options : CompileOptions}
    {bundle : Bundle}
    (hcompile : compile source file options = .ok bundle) :
    ∃ document, Document.read source file = .ok document ∧
      (∃ names : List String, Css.read bundle.css.toList =
        some (names.map Css.keyframes ++ document.headers.filterMap Header.ruleItem?)) ∧
      List.Forall₂
        (fun h tag => h.isStyled = true ∨ h.isAnimated = true →
          ∃ attributes, Page.ReadsAsTag tag h.tag attributes ∧
            h.IsStyledBy attributes h.ruleItem?)
        document.shownHeaders (Page.startTags bundle.html.toList) ∧
      document.headers.Pairwise fun g h => ∀ a b,
        g.anchor = some (.ofClass a) → h.anchor = some (.ofClass b) →
          Anchor.selector (.ofClass a) ≠ Anchor.selector (.ofClass b) := by
  obtain ⟨document, warnings, hread, hvalid, rfl⟩ := exists_document_of_compile hcompile
  have hclean := Document.clean_of_isOk hread hvalid
  have hcss : Css.read document.css.toList = some (Stylesheet.ofDocument document).items :=
    Stylesheet.read_text (Document.harmless_stylesheet hvalid)
  refine ⟨document, hread, ⟨_, hcss.trans (congrArg some (Document.items_stylesheet hvalid))⟩, ?_,
    Document.classAnchors_differ hread⟩
  rw [Document.html_bundle, Page.startTags_html hclean, List.forall₂_map_right_iff,
    List.forall₂_same]
  intro h hh hdeclared
  have hmem := Document.mem_headers_of_mem_shownHeaders hh
  obtain ⟨children, hnode⟩ := Document.mem_preorderList_of_mem_headers hmem
  have hheader := hclean _ hnode
  exact ⟨h.shownAttributes, Page.readsAsTag_startChars hheader,
    Header.isStyledBy_shownAttributes (fun entry hentry => (hheader.2 entry hentry).2)
      (Document.errors_eq_nil_of_mem_headers hvalid hmem) hdeclared⟩

/-- Four elements: the first has an id, the next two are told apart by the classes that they get,
and nothing ties the last one to a rule. -/
def styledPage : String :=
  "a#top(style: \"color: red\")\nb.wide(style: \"width: 1px; color: blue\")\n" ++
    "i(animate: \"fade 2s\")\nu(style: \"width: 2px\")\n"

def styledPageCss : String :=
  "@keyframes fade \x7b\n  0% \x7b opacity: 0; \x7d\n  100% \x7b opacity: 1; \x7d\n\x7d\n\n" ++
  "#top \x7b\n  color: red;\n\x7d\n\n" ++
  ".hx-2-1 \x7b\n  width: 1px;\n  color: blue;\n\x7d\n\n" ++
  ".hx-3-1 \x7b\n  animation: fade 2s;\n\x7d\n"

def styledPageTags : List (List Char) :=
  ["a id=\"top\"", "b class=\"wide hx-2-1\"", "i class=\"hx-3-1\"",
    "u style=\"width:2px;\""].map String.toList

theorem compile_keeps_styles_in_one_place_styledPage :
    ∃ bundle, compile styledPage "page" CompileOptions.standard = .ok bundle ∧
      bundle.css = styledPageCss ∧ Page.startTags bundle.html.toList = styledPageTags ∧
      ∃ document, Document.read styledPage "page" = .ok document ∧
        (∃ names : List String, Css.read styledPageCss.toList =
          some (names.map Css.keyframes ++ document.headers.filterMap Header.ruleItem?)) ∧
        List.Forall₂
          (fun h tag => h.isStyled = true ∨ h.isAnimated = true →
            ∃ attributes, Page.ReadsAsTag tag h.tag attributes ∧
              h.IsStyledBy attributes h.ruleItem?)
          document.shownHeaders styledPageTags := by
  have hcss : (compile styledPage "page" CompileOptions.standard).toOption.map (·.css) =
      some styledPageCss := by
    decide +kernel
  have htags : (Document.read styledPage "page").toOption.map
      (fun document => document.shownHeaders.map Page.startChars) = some styledPageTags := by
    decide +kernel
  cases hcompile : compile styledPage "page" CompileOptions.standard with
  | error e =>
      rw [hcompile] at hcss
      cases hcss
  | ok bundle =>
      rw [hcompile] at hcss
      obtain ⟨document, hread, hrules, hstyled, -⟩ := compile_keeps_styles_in_one_place hcompile
      rw [hread] at htags
      have hrulesText : bundle.css = styledPageCss := Option.some.inj hcss
      rw [hrulesText] at hrules
      have hpage : Page.startTags bundle.html.toList = styledPageTags :=
        (startTags_of_compile hcompile hread).trans (Option.some.inj htags)
      rw [hpage] at hstyled
      exact ⟨bundle, rfl, hrulesText, hpage, document, hread, hrules, hstyled⟩

end BlockMarkup
