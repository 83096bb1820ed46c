import BlockMarkup.Page.Stylesheet
import BlockMarkup.Proofs.Attribute.Animation
import BlockMarkup.Proofs.Page.Css
import BlockMarkup.Proofs.Page.ReadBack

/-!
# A stylesheet carries its rules

From the stylesheet of a document without errors, a reader gets the keyframes and the rules of the
document, one after another, and nothing else: no string of the document can open, close or join
blocks or declarations. An id is an identifier, a property has letters and hyphens, and neither
values nor animations have a character at which the text is cut.
-/

namespace BlockMarkup

namespace Css

/-! ## Keyframes and rules -/

/-- The keyframes of an animation. -/
def keyframes (name : String) : Item :=
  .block ("@keyframes " ++ name)
    [.block "0%" [.declaration "opacity" "0"], .block "100%" [.declaration "opacity" "1"]]

theorem isPlain_of_isIdentifierChar
    {c : Char}
    (hc : isIdentifierChar c = true) :
    isPlain c = true :=
  isPlain_of_apply (by decide) (by decide) (by decide) hc

/-- The characters of which a selector consists. -/
def isSolid (c : Char) : Bool := isPlain c && !Text.isBlank c

theorem isPlain_of_isSolid
    {c : Char}
    (hc : isSolid c = true) :
    isPlain c = true :=
  (Bool.and_eq_true_iff.1 hc).1

theorem isBlank_of_isSolid
    {c : Char}
    (hc : isSolid c = true) :
    Text.isBlank c = false := by
  simpa using (Bool.and_eq_true_iff.1 hc).2

theorem isSolid_of_isIdentifierChar
    {c : Char}
    (hc : isIdentifierChar c = true) :
    isSolid c = true := by
  rw [isSolid, isPlain_of_isIdentifierChar hc, isBlank_of_isIdentifierChar hc]
  rfl

theorem spells_frame
    (head value : String)
    (hplain : head.toList.all isPlain = true)
    (htrim : Text.dropBlank head.toList = head.toList)
    (hvalue : value.toList.all isPlain = true) :
    Spells (head ++ " \x7b opacity: " ++ value ++ "; \x7d").toList
      [.block head [.declaration "opacity" value]] := by
  have hspace : Spells [' '] [] := spells_blank (by decide)
  have hopacity : Spells ("opacity".toList ++ ':' :: ' ' :: (value.toList ++ [';']))
      [.declaration "opacity" value] := by
    exact spells_declaration (List.all_eq_true.1 (by decide)) (by decide) (by decide)
      (List.all_eq_true.1 hvalue)
  simpa using spells_block (List.all_eq_true.1 hplain) htrim
    ((hspace.append hopacity).append hspace)

/-- Keyframes are read as a block with two frames. -/
theorem spells_keyframesText
    {name : String}
    (hname : isIdentifier name = true) :
    Spells (Stylesheet.keyframesText name).toList [keyframes name] := by
  obtain ⟨first, rest, hlist, -, hchars⟩ := exists_of_isIdentifier hname
  have hplain : ∀ c ∈ ("@keyframes " ++ name).toList, isPlain c = true := by
    rw [String.toList_append, List.forall_mem_append]
    exact ⟨List.all_eq_true.1 (by decide), fun c hc => isPlain_of_isIdentifierChar (hchars c hc)⟩
  have htrim : Text.dropBlank ("@keyframes " ++ name).toList = ("@keyframes " ++ name).toList := by
    refine Text.dropBlank_eq_self (by simp; decide) fun c hc => ?_
    have hmem : c ∈ name.toList := by
      refine List.mem_of_getLast? ?_
      rwa [String.toList_append, List.getLast?_append_of_ne_nil _ (by simp [hlist])] at hc
    exact isBlank_of_isIdentifierChar (hchars c hmem)
  have hgap : Spells "\n  ".toList [] := spells_blank (by decide)
  have hend : Spells "\n".toList [] := spells_blank (by decide)
  have hfirst := spells_frame "0%" "0" (by decide) (by decide) (by decide)
  have hlast := spells_frame "100%" "1" (by decide) (by decide) (by decide)
  have hframes := (((hgap.append hfirst).append hgap).append hlast).append hend
  simpa [Stylesheet.keyframesText, keyframes] using spells_block hplain htrim hframes

end Css

namespace StyleRule

/-- Whether the strings of a rule leave it as it is written. -/
structure Harmless (r : StyleRule) : Prop where
  selector : ∀ c ∈ r.selector.toList, Css.isSolid c = true
  property : ∀ d ∈ r.declarations, Style.isProperty d.1 = true
  value : ∀ d ∈ r.declarations, ∀ c ∈ d.2.toList, Css.isPlain c = true

def item (r : StyleRule) : Css.Item :=
  .block r.selector (r.declarations.map fun d => .declaration d.1 d.2)

/-- A declaration is read as such, since its value ends neither it nor its rule. -/
theorem spells_declaration
    {r : StyleRule}
    (hr : r.Harmless)
    {d : String × String}
    (hd : d ∈ r.declarations) :
    Css.Spells ("  " ++ d.1 ++ ": " ++ d.2 ++ ";\n").toList [.declaration d.1 d.2] := by
  have hproperty : ∀ c ∈ d.1.toList, isAsciiLetter c = true ∨ c = '-' := by
    simpa [Style.isProperty] using (Bool.and_eq_true_iff.1 (hr.property d hd)).2
  have hchars : ∀ c ∈ d.1.toList, isIdentifierChar c = true := by
    intro c hc
    rcases hproperty c hc with hletter | rfl
    · simp [isIdentifierChar, isAsciiAlphanumeric, hletter]
    · decide
  have htrim : Text.dropBlank d.1.toList = d.1.toList :=
    Text.dropBlank_of_not_blank fun c hc => isBlank_of_isIdentifierChar (hchars c hc)
  have hcolon : ':' ∉ d.1.toList := fun h => absurd (hchars ':' h) (by decide)
  have hbefore : Css.Spells [' ', ' '] [] := Css.spells_blank (by decide)
  have hbehind : Css.Spells ['\n'] [] := Css.spells_blank (by decide)
  have hdeclaration := Css.spells_declaration
    (fun c hc => Css.isPlain_of_isIdentifierChar (hchars c hc)) hcolon htrim (hr.value d hd)
  simpa using (hbefore.append hdeclaration).append hbehind

/-- A rule is read as a block with its declarations. -/
theorem spells_text
    {r : StyleRule}
    (hr : r.Harmless) :
    Css.Spells r.text.toList [r.item] := by
  have hdeclarations : Css.Spells
      (r.declarations.flatMap fun d => ("  " ++ d.1 ++ ": " ++ d.2 ++ ";\n").toList)
      (r.declarations.map fun d => .declaration d.1 d.2) :=
    Css.spells_flatMap fun d hd => spells_declaration hr hd
  have htrim : Text.dropBlank r.selector.toList = r.selector.toList :=
    Text.dropBlank_of_not_blank fun c hc => Css.isBlank_of_isSolid (hr.selector c hc)
  have hbreak : Css.Spells ['\n'] [] := Css.spells_blank (by decide)
  have hblock := Css.spells_block (fun c hc => Css.isPlain_of_isSolid (hr.selector c hc)) htrim
    (hbreak.append hdeclarations)
  simpa [text, item, Page.toList_join, List.flatMap_map] using hblock

end StyleRule

namespace Stylesheet

structure Harmless (s : Stylesheet) : Prop where
  keyframes : ∀ name ∈ s.keyframes, isIdentifier name = true
  rules : ∀ r ∈ s.rules, r.Harmless

def items (s : Stylesheet) : List Css.Item :=
  s.keyframes.map Css.keyframes ++ s.rules.map StyleRule.item

/-- A stylesheet without harmful values is read as its keyframes and rules. -/
theorem read_text
    {s : Stylesheet}
    (hs : s.Harmless) :
    Css.read s.text.toList = some s.items := by
  have hpieces : ∀ piece ∈ s.keyframes.map (fun name => (keyframesText name, Css.keyframes name)) ++
      s.rules.map (fun r => (r.text, r.item)), Css.Spells piece.1.toList [piece.2] := by
    rw [List.forall_mem_append, List.forall_mem_map, List.forall_mem_map]
    exact ⟨fun name hname => Css.spells_keyframesText (hs.keyframes name hname),
      fun r hr => StyleRule.spells_text (hs.rules r hr)⟩
  have hblocks : Css.Spells
      (Text.join "\n\n" (s.keyframes.map keyframesText ++ s.rules.map StyleRule.text)).toList
      s.items := by
    simpa [items, Function.comp_def] using Css.spells_join hpieces
  have hend : Css.Spells "\n".toList [] := Css.spells_blank (by decide)
  apply Css.read_of_spells
  rw [text]
  split
  · next hempty =>
      rwa [List.isEmpty_iff.1 hempty] at hblocks
  · simpa using hblocks.append hend

end Stylesheet

/-! ## Documents without errors -/

namespace Node

def header? : Node → Option Header
  | element header _ => some header
  | text _ => none

end Node

namespace Header

variable {h : Header}

/-- The declarations in the rule of an element: those of its style, unchanged, and then the words of
its animation with single spaces between them. -/
def ruleItems (h : Header) : List Css.Item :=
  (h.style.elim [] fun style => style.entries.map fun d => .declaration d.1 d.2) ++
    h.animation.elim [] fun value =>
      [.declaration "animation" (Text.join " " (Text.words value))]

/-- The first word of an animation. -/
def animationName? (h : Header) : Option String :=
  h.animation.bind fun value => (Text.words value).head?

theorem isIdentifier_id
    (herrors : h.errors = [])
    {id : String}
    (hid : h.id = some id) :
    isIdentifier id = true := by
  simp only [errors, List.append_eq_nil_iff] at herrors
  by_contra hnot
  simp [idErrors, hid, hnot] at herrors

theorem attribute_errors_eq_nil
    (herrors : h.errors = [])
    {name : String}
    {value : Attribute}
    (hget : h.attributes.get? name = some value) :
    value.errors h.position name = [] := by
  simp only [errors, List.append_eq_nil_iff] at herrors
  obtain ⟨before, after, hentries, -⟩ := List.lookup_eq_some_iff.1 hget
  have hmem : (name, value) ∈ h.attributes.entries := by simp [hentries]
  exact List.flatMap_eq_nil_iff.1 herrors.2 (name, value) hmem

theorem get?_of_style
    {style : Style}
    (hstyle : h.style = some style) :
    h.attributes.get? Attribute.styleName = some (.style style) := by
  unfold Header.style at hstyle
  split at hstyle
  · next hget => rw [hget, Option.some.inj hstyle]
  · cases hstyle

/-- Without errors, a style has proper properties and values only. -/
theorem style_declarations
    (herrors : h.errors = [])
    {style : Style}
    (hstyle : h.style = some style) :
    ∀ d ∈ style.entries, Style.isProperty d.1 = true ∧ Style.isValue d.2 = true := by
  intro d hd
  have hget := get?_of_style hstyle
  have hnone := List.flatMap_eq_nil_iff.1 (attribute_errors_eq_nil herrors hget) d hd
  rw [List.append_eq_nil_iff] at hnone
  constructor
  · by_contra hproperty
    simp [hproperty] at hnone
  · by_contra hvalue
    simp [hvalue] at hnone

/-- The animation of an element without errors is the one that is written. -/
theorem exists_animation?
    (herrors : h.errors = [])
    {value : String}
    (hvalue : h.animation = some value) :
    ∃ a, h.animation? = some a ∧ a.WellFormed ∧ a.words = Text.words value := by
  have hget : h.attributes.get? Attribute.animateName = some (.text value) := by
    unfold Header.animation at hvalue
    split at hvalue
    · next hget => rw [hget, Option.some.inj hvalue]
    · cases hvalue
  have hnone := attribute_errors_eq_nil herrors hget
  rw [Attribute.errors, if_pos rfl] at hnone
  cases hread : Animation.read value with
  | error problem =>
      simp [hread] at hnone
  | ok a =>
      obtain ⟨hformed, hwords⟩ := Animation.wellFormed_of_read hread
      exact ⟨a, by rw [animation?, hvalue]; simp [hread, Except.toOption], hformed, hwords⟩

theorem animation?_eq_none
    (hnone : h.animation = none) :
    h.animation? = none := by
  rw [animation?, hnone]

/-- The declarations of a rule are those that the attributes of its element ask for. -/
theorem declarations_map
    (herrors : h.errors = []) :
    (h.declarations.map fun d => Css.Item.declaration d.1 d.2) = h.ruleItems := by
  rw [declarations, ruleItems, List.map_append]
  congr 1
  · cases h.style <;> rfl
  · cases hvalue : h.animation with
    | none =>
        rw [animation?_eq_none hvalue]
        rfl
    | some value =>
        obtain ⟨a, ha, -, hwords⟩ := exists_animation? herrors hvalue
        rw [ha]
        simp [Animation.text, hwords]

theorem animation?_map_name
    (herrors : h.errors = []) :
    (h.animation?.map fun a => a.name) = h.animationName? := by
  cases hvalue : h.animation with
  | none =>
      rw [animation?_eq_none hvalue, animationName?, hvalue]
      rfl
  | some value =>
      obtain ⟨a, ha, -, hwords⟩ := exists_animation? herrors hvalue
      rw [ha, animationName?, hvalue]
      simp [← hwords, Animation.words]

theorem isPlain_of_isValue
    {value : String}
    (hvalue : Style.isValue value = true) :
    ∀ c ∈ value.toList, Css.isPlain c = true := by
  intro c hc
  have hchar := List.all_eq_true.1 hvalue c hc
  simp only [Bool.not_eq_true', Bool.or_eq_false_iff, decide_eq_false_iff_not] at hchar
  simp [Css.isPlain, hchar]

theorem isPlain_of_isShorthandChar
    {c : Char}
    (hc : Animation.isShorthandChar c = true) :
    Css.isPlain c = true :=
  Css.isPlain_of_apply (by decide) (by decide) (by decide) hc

/-- Style and animation bring no character at which the stylesheet would be cut. -/
theorem harmless_declarations
    (herrors : h.errors = []) :
    ∀ d ∈ h.declarations,
      Style.isProperty d.1 = true ∧ ∀ c ∈ d.2.toList, Css.isPlain c = true := by
  intro d hd
  rw [declarations, List.mem_append] at hd
  rcases hd with hd | hd
  · split at hd
    · next style hstyle =>
        obtain ⟨hproperty, hvalue⟩ := style_declarations herrors hstyle d hd
        exact ⟨hproperty, isPlain_of_isValue hvalue⟩
    · cases hd
  · cases hvalue : h.animation with
    | none =>
        rw [animation?_eq_none hvalue] at hd
        cases hd
    | some value =>
        obtain ⟨a, ha, hformed, -⟩ := exists_animation? herrors hvalue
        rw [ha, List.mem_singleton] at hd
        subst hd
        have hanimation : Style.isProperty "animation" = true := by decide
        exact ⟨hanimation, hformed.forall_mem_text (by decide) isPlain_of_isShorthandChar⟩

theorem isIdentifierChar_of_mem_classAt
    (p : Position) :
    ∀ c ∈ (Anchor.classAt p).toList, isIdentifierChar c = true := by
  have hdigits : ∀ n : Nat, ∀ c ∈ (toString n).toList, isIdentifierChar c = true := by
    intro n c hc
    have hmem : c ∈ Nat.toDigits 10 n := by simpa [Nat.repr] using hc
    have hdigit : isAsciiDigit c = true := Nat.isDigit_of_mem_toDigits (by decide) (by decide) hmem
    simp [isIdentifierChar, isAsciiAlphanumeric, hdigit]
  simp only [Anchor.classAt, String.toList_append, List.forall_mem_append]
  exact ⟨⟨⟨List.all_eq_true.1 (by decide), hdigits p.line⟩, List.all_eq_true.1 (by decide)⟩,
    hdigits p.column⟩

/-- The characters of selectors. -/
theorem mem_selector
    (herrors : h.errors = [])
    {anchor : Anchor}
    (hanchor : h.anchor = some anchor) :
    ∀ c ∈ anchor.selector.toList, c = '#' ∨ c = '.' ∨ isIdentifierChar c = true := by
  unfold Header.anchor at hanchor
  split at hanchor
  · split at hanchor
    · next id hid =>
        cases hanchor
        obtain ⟨-, -, -, -, hchars⟩ := exists_of_isIdentifier (isIdentifier_id herrors hid)
        rw [Anchor.selector, String.toList_append, List.forall_mem_append]
        exact ⟨by simp, fun c hc => Or.inr (Or.inr (hchars c hc))⟩
    · split at hanchor
      · cases hanchor
        rw [Anchor.selector, String.toList_append, List.forall_mem_append]
        exact ⟨by simp, fun c hc =>
          Or.inr (Or.inr (isIdentifierChar_of_mem_classAt h.position c hc))⟩
      · cases hanchor
  · cases hanchor

/-- The selector of an element without errors is one word. -/
theorem harmless_selector
    (herrors : h.errors = [])
    {anchor : Anchor}
    (hanchor : h.anchor = some anchor) :
    ∀ c ∈ anchor.selector.toList, Css.isSolid c = true := by
  intro c hc
  rcases mem_selector herrors hanchor c hc with rfl | rfl | hc
  · decide
  · decide
  · exact Css.isSolid_of_isIdentifierChar hc

/-- The rule of an element without errors can be read back. -/
theorem harmless_of_rule?
    (herrors : h.errors = [])
    {r : StyleRule}
    (hr : h.rule? = some r) :
    r.Harmless := by
  obtain ⟨anchor, hanchor, rfl⟩ := Option.map_eq_some_iff.1 hr
  exact ⟨harmless_selector herrors hanchor, fun d hd => (harmless_declarations herrors d hd).1,
    fun d hd => (harmless_declarations herrors d hd).2⟩

theorem wellFormed_animation
    (herrors : h.errors = [])
    {a : Animation}
    (ha : h.animation? = some a) :
    a.WellFormed := by
  cases hvalue : h.animation with
  | none =>
      rw [animation?_eq_none hvalue] at ha
      cases ha
  | some value =>
      obtain ⟨b, hb, hformed, -⟩ := exists_animation? herrors hvalue
      rw [hb] at ha
      cases ha
      exact hformed

end Header

namespace Document

/-- The headers of the elements, each before those inside it. -/
def headers (document : Document) : List Header :=
  (Node.preorderList document).filterMap Node.header?

theorem elements_map_header
    (document : Document) :
    (document.elements.map fun e => e.header) = document.headers := by
  fun_induction elements document with
  | case1 =>
      rfl
  | case2 run rest ih =>
      simpa [headers, Node.preorderList, Node.preorder, List.filterMap_cons, Node.header?] using ih
  | case3 header children rest ih =>
      simpa [headers, Node.preorderList, Node.preorder, Node.header?] using ih

variable {document : Document} {file : String} {threshold : Nat}

theorem errors_eq_nil_of_mem_headers
    (hvalid : (document.validate file threshold).isOk = true)
    {h : Header}
    (hh : h ∈ document.headers) :
    h.errors = [] := by
  obtain ⟨n, hn, hheader⟩ := List.mem_filterMap.1 hh
  cases n with
  | element header children =>
      cases hheader
      exact errors_eq_nil_of_isOk hvalid hn
  | text run =>
      cases hheader

/-- The stylesheet of a valid document can be read back. -/
theorem harmless_stylesheet
    (hvalid : (document.validate file threshold).isOk = true) :
    (Stylesheet.ofDocument document).Harmless := by
  have herrors : ∀ h ∈ document.headers, h.errors = [] := fun h hh =>
    errors_eq_nil_of_mem_headers hvalid hh
  constructor
  · intro name hname
    simp only [Stylesheet.ofDocument, elements_map_header, List.mem_eraseDups,
      List.mem_filterMap, Option.map_eq_some_iff] at hname
    obtain ⟨h, hh, a, ha, rfl⟩ := hname
    exact (Header.wellFormed_animation (herrors h hh) ha).name
  · intro r hr
    simp only [Stylesheet.ofDocument, elements_map_header, List.mem_filterMap] at hr
    obtain ⟨h, hh, hr⟩ := hr
    exact Header.harmless_of_rule? (herrors h hh) hr

/-- What the stylesheet of a valid document holds: keyframes in the order of first use, and a rule
for each anchored element. -/
theorem items_stylesheet
    (hvalid : (document.validate file threshold).isOk = true) :
    (Stylesheet.ofDocument document).items =
      (document.headers.filterMap Header.animationName?).eraseDups.map Css.keyframes ++
        document.headers.filterMap fun h =>
          h.anchor.map fun anchor => .block anchor.selector h.ruleItems := by
  have herrors : ∀ h ∈ document.headers, h.errors = [] := fun h hh =>
    errors_eq_nil_of_mem_headers hvalid hh
  have hnames : (document.headers.filterMap fun h => h.animation?.map fun a => a.name) =
      document.headers.filterMap Header.animationName? :=
    List.filterMap_congr fun h hh => Header.animation?_map_name (herrors h hh)
  have hrules : (document.headers.filterMap fun h => h.rule?).map StyleRule.item =
      document.headers.filterMap fun h =>
        h.anchor.map fun anchor => .block anchor.selector h.ruleItems := by
    rw [List.map_filterMap]
    refine List.filterMap_congr fun h hh => ?_
    rw [Header.rule?, Option.map_map]
    simp [Function.comp_def, StyleRule.item, Header.declarations_map (herrors h hh)]
  simp only [Stylesheet.items, Stylesheet.ofDocument, elements_map_header, hnames, hrules]

/-- The stylesheet of a document without errors is read as keyframes for each name of an animation,
in the order of first use, and then a rule for each element with an anchor, in document order. -/
theorem css_reads_as_rules
    (hvalid : (document.validate file threshold).isOk = true) :
    Css.read document.css.toList = some
      ((document.headers.filterMap Header.animationName?).eraseDups.map Css.keyframes ++
        document.headers.filterMap fun h =>
          h.anchor.map fun anchor => .block anchor.selector h.ruleItems) := by
  rw [css, Stylesheet.read_text (harmless_stylesheet hvalid), items_stylesheet hvalid]

/-- Two animated elements that share a name, and a value with colons, blanks and a comment. -/
def animatedPage : Document :=
  [.element ⟨"main", some "top", [], .ofList [
      ("style", .style (.ofList [("color", " red : /* \n"), ("--accent", "")])),
      ("animate", .text " fade  2s ")], ⟨1, 1⟩, none⟩
    [.element ⟨"p", none, ["note"], .ofList [("animate", .text "fade 250ms steps(4,end) infinite")],
      ⟨2, 3⟩, none⟩ [.text ⟨"\x7d b \x7b color: red;", ⟨2, 10⟩, none⟩]]]

theorem css_reads_as_rules_animatedPage :
    (animatedPage.validate "page" 10).isOk = true ∧
    Css.read animatedPage.css.toList = some
      [Css.keyframes "fade",
        .block "#top" [.declaration "color" " red : /* \n", .declaration "--accent" "",
          .declaration "animation" "fade 2s"],
        .block ".hx-2-3" [.declaration "animation" "fade 250ms steps(4,end) infinite"]] := by
  have hvalid : (animatedPage.validate "page" 10).isOk = true := by decide +kernel
  exact ⟨hvalid, css_reads_as_rules hvalid⟩

end Document

end BlockMarkup
