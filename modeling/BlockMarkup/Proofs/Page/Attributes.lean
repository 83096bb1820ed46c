import BlockMarkup.Page.Html
import BlockMarkup.Proofs.Node.Sound

/-!
# The attributes that a page shows

A start tag shows the id of its element, its classes, among them the class that stands in for a
missing anchor, and those of its other attributes that mean something in a page. Animations and
what has a reserved name are left out, and so are styles that are empty or have moved to the
stylesheet; directives are shown under names of their own. All this is decided here by the names
of the attributes. The page decides it by the kinds of their values, and the two agree on every
element that was read.
-/

namespace BlockMarkup

namespace Attribute

/-- The name under which a page shows an attribute called `name`. -/
def shownName (name : String) : String :=
  if name = "⚡-call" then "data-api-call" else if name = "⚡-data" then "data-dynamic" else name

def shownText : Attribute → String
  | text value => value
  | style declarations => declarations.inline
  | directive d => d.target

def isEmptyStyle : Attribute → Bool
  | style declarations => declarations.isEmpty
  | _ => false

/-- What a value says about the name of its attribute. -/
def GoesBy : Attribute → String → Prop
  | text _, name => name ≠ "style" ∧ name ≠ "⚡-call" ∧ name ≠ "⚡-data"
  | style _, name => name = "style"
  | directive (.call _), name => name = "⚡-call"
  | directive (.data _), name => name = "⚡-data"

/-- The kind of a value that was read says what its attribute is called. -/
theorem Suits.goesBy
    {name : String}
    {value : Attribute}
    (hsuits : Suits name value) :
    value.GoesBy name := by
  obtain ⟨written, hderive⟩ := hsuits
  unfold derive at hderive
  split_ifs at hderive with hstyle hcall hdata
  · cases hread : Style.read written with
    | error e =>
        simp [hread, Except.map] at hderive
    | ok declarations =>
        simp only [hread, Except.map, Except.ok.injEq] at hderive
        subst hderive
        exact hstyle
  · simp only [Except.ok.injEq] at hderive
    subst hderive
    exact hcall
  · simp only [Except.ok.injEq] at hderive
    subst hderive
    exact hdata
  · simp only [Except.ok.injEq] at hderive
    subst hderive
    exact ⟨hstyle, hcall, hdata⟩

end Attribute

namespace Header

variable (h : Header)

/-- Whether the stylesheet has a rule for an element. An animation always has one, a style only if
an id or a class ties the element to it. -/
def isAnchored : Bool := h.isAnimated || (h.isStyled && (h.id.isSome || !h.classes.isEmpty))

/-- The classes that a page shows. -/
def shownClasses : List String :=
  h.classes ++ if h.isAnchored && h.id.isNone then [Anchor.classAt h.position] else []

/-- Whether a page leaves out an attribute: the animation, what has a reserved name and is no
directive, and a style that is empty or has moved to the stylesheet. -/
def leavesOut (entry : String × Attribute) : Bool :=
  entry.1 = "animate" ||
    ("⚡-".toList.isPrefixOf entry.1.toList && entry.1 ≠ "⚡-call" && entry.1 ≠ "⚡-data") ||
    (entry.1 = "style" && (h.isAnchored || entry.2.isEmptyStyle))

def shownAttributes : List (String × String) :=
  h.id.toList.map (fun id => ("id", id)) ++
    (if h.shownClasses = [] then [] else [("class", Text.join " " h.shownClasses)]) ++
    (h.attributes.entries.filter fun entry => !h.leavesOut entry).map fun entry =>
      (Attribute.shownName entry.1, entry.2.shownText)

theorem leavesOut_text
    {name : String}
    {value : String}
    (hname : (Attribute.text value).GoesBy name) :
    h.leavesOut (name, .text value) =
      (decide (name = Attribute.animateName) || Attribute.isReserved name) := by
  obtain ⟨hstyle, hcall, hdata⟩ := hname
  simp only [leavesOut, hstyle, hcall, hdata, ne_eq, not_false_eq_true, decide_true, decide_false,
    Bool.and_true, Bool.false_and, Bool.or_false]
  rfl

theorem leavesOut_style
    (declarations : Style) :
    h.leavesOut ("style", .style declarations) = (h.isAnchored || declarations.isEmpty) := by
  simp [leavesOut, Attribute.isEmptyStyle, List.isPrefixOf]

theorem leavesOut_directive
    {name : String}
    (hname : name = "⚡-call" ∨ name = "⚡-data")
    (value : Attribute) :
    h.leavesOut (name, value) = false := by
  have hanimate : name ≠ "animate" := by
    rcases hname with rfl | rfl <;> simp
  have hstyle : name ≠ "style" := by
    rcases hname with rfl | rfl <;> simp
  have hkept : (decide (name ≠ "⚡-call") && decide (name ≠ "⚡-data")) = false := by
    rcases hname with hname | hname <;> simp [hname]
  simp only [leavesOut, hanimate, hstyle, decide_false, Bool.false_and, Bool.or_false,
    Bool.and_assoc, hkept, Bool.and_false]

/-- An element has no anchor exactly if the stylesheet has no rule for it. -/
theorem isNone_anchor :
    h.anchor.isNone = !h.isAnchored := by
  unfold anchor isAnchored
  cases hid : h.id <;> cases h.isStyled <;> cases h.isAnimated <;> cases h.classes.isEmpty <;> rfl

/-- The class that stands in for an anchor comes last. -/
theorem shownClasses_eq :
    h.shownClasses =
      match h.anchor with
      | some (.ofClass name) => h.classes ++ [name]
      | _ => h.classes := by
  unfold shownClasses anchor isAnchored
  cases hid : h.id <;> cases h.isStyled <;> cases h.isAnimated <;> cases h.classes.isEmpty <;> simp

end Header

theorem flatMap_eq_map_filter
    {α β : Type}
    {f : α → List β}
    {p : α → Bool}
    {g : α → β}
    {as : List α}
    (hf : ∀ a ∈ as, f a = if p a then [g a] else []) :
    as.flatMap f = (as.filter p).map g := by
  induction as with
  | nil =>
      rfl
  | cons a as ih =>
      rw [List.forall_mem_cons] at hf
      rw [List.flatMap_cons, hf.1, ih hf.2]
      by_cases ha : p a = true
      · simp [ha]
      · simp [ha]

/-- Where the values of attributes suit their names, the attributes of a start tag are the ones that
a page shows. -/
theorem Page.attributes_eq_shownAttributes
    {h : Header}
    (hsuits : ∀ entry ∈ h.attributes.entries, Attribute.Suits entry.1 entry.2) :
    attributes h = h.shownAttributes := by
  simp only [attributes, Header.shownAttributes, h.shownClasses_eq, List.isEmpty_iff]
  congr 1
  -- the ids and classes agree; what is left is a comparison for each of the other attributes
  refine flatMap_eq_map_filter fun entry hentry => ?_
  obtain ⟨name, value⟩ := entry
  have hname : value.GoesBy name := (hsuits _ hentry).goesBy
  cases value with
  | text value =>
      have hshown : Attribute.shownName name = name := by
        simp [Attribute.shownName, hname.2.1, hname.2.2]
      simp only [h.leavesOut_text hname, hshown, Attribute.shownText]
      cases decide (name = Attribute.animateName) || Attribute.isReserved name <;> rfl
  | style declarations =>
      obtain rfl : name = "style" := hname
      have hshown : Attribute.shownName "style" = "style" := by
        simp [Attribute.shownName]
      simp only [h.leavesOut_style, hshown, h.isNone_anchor, Attribute.shownText, Bool.not_or]
  | directive d =>
      cases d with
      | call endpoint =>
          have hshown : Attribute.shownName name = "data-api-call" := if_pos hname
          simp [h.leavesOut_directive (Or.inl hname), hshown, Attribute.shownText,
            Directive.target]
      | data key =>
          have hother : name ≠ "⚡-call" := by
            rw [hname]
            simp
          have hshown : Attribute.shownName name = "data-dynamic" :=
            (if_neg hother).trans (if_pos hname)
          simp [h.leavesOut_directive (Or.inr hname), hshown, Attribute.shownText,
            Directive.target]

end BlockMarkup
