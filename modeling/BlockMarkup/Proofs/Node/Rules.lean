import BlockMarkup.Proofs.Node.WellFormed

/-!
# The rules of validation

Validation goes through the elements once and remembers where ids were first used and how many
elements were animated. Here its answer is compared with the rules as they are written down, which
speak of an element and of all the elements before it and know of no counter.

What is remembered always reflects the elements that were visited (`Visitor.Reflects`). So each
element gives the warnings that its rules ask for (`Element.warningsAfter`), and the warnings of a
document are those of its elements one after another (`Visitor.Reflects.warnings_foldl_visit`).
-/

namespace BlockMarkup

namespace Node

mutual

/-- The elements of a tree, each before those inside it. -/
def elements : Node → List Element
  | .element header children => ⟨header, children⟩ :: elementsList children
  | .text _ => []

def elementsList : List Node → List Element
  | [] => []
  | n :: rest => n.elements ++ elementsList rest

end

theorem elementsList_append
    (as bs : List Node) :
    elementsList (as ++ bs) = elementsList as ++ elementsList bs := by
  induction as with
  | nil => rfl
  | cons n as ih => rw [List.cons_append, elementsList, elementsList, ih, List.append_assoc]

end Node

/-- Keeping the nodes that are still to be visited in one list gives the same order. -/
theorem Document.elements_eq_elementsList
    (document : Document) :
    document.elements = Node.elementsList document := by
  fun_induction Document.elements document with
  | case1 =>
      rfl
  | case2 run rest ih =>
      rw [ih, Node.elementsList, Node.elements, List.nil_append]
  | case3 header children rest ih =>
      rw [ih, Node.elementsList, Node.elements, Node.elementsList_append, List.cons_append]

namespace Diagnostic

variable (position : Position)

def invalidTag (tag : String) : Diagnostic :=
  ⟨.invalidTag, "invalid tag name \"" ++ tag ++ "\"", position⟩

def invalidId (id : String) : Diagnostic :=
  ⟨.invalidId, "invalid id \"" ++ id ++ "\": " ++ Header.nameRule "ids", position⟩

def invalidClass (name : String) : Diagnostic :=
  ⟨.invalidClass, "invalid class \"" ++ name ++ "\": " ++ Header.nameRule "classes", position⟩

def duplicateId (id : String) (first : Position) : Diagnostic :=
  ⟨.duplicateId, "duplicate id \"" ++ id ++ "\", first used at " ++ first.text, position⟩

def reducedMotion : Diagnostic :=
  ⟨.reducedMotion, "animations should be disabled under `prefers-reduced-motion: reduce`", position⟩

def excessAnimation (threshold : Nat) : Diagnostic :=
  ⟨.excessAnimation,
    "more than " ++ toString threshold ++ " animated elements, consider animating fewer", position⟩

def unknownDirective (name : String) : Diagnostic :=
  ⟨.unknownDirective, "unknown directive `" ++ name ++ "` is ignored", position⟩

def voidChildren (tag : String) : Diagnostic :=
  ⟨.voidChildren, "<" ++ tag ++ "> cannot have content, its children are ignored", position⟩

theorem unknownDirective_injective : Function.Injective (unknownDirective position) := by
  intro name other h
  simpa [unknownDirective] using h

end Diagnostic

/-! ## Errors -/

/-- The rules for errors of an attribute. -/
inductive Attribute.Breaks (position : Position) (name : String) : Attribute → Diagnostic → Prop
  | emptyDirective
      {d : Directive}
      (hblank : Text.isAllBlank d.target = true) :
      Breaks position name (.directive d)
        ⟨.emptyDirective, "`" ++ name ++ "` needs a non-empty value", position⟩
  | styleProperty
      {style : Style}
      {property value : String}
      (hentry : (property, value) ∈ style.entries)
      (hproperty : Style.isProperty property = false) :
      Breaks position name (.style style)
        ⟨.invalidStyle, "invalid style property \"" ++ property ++ "\"", position⟩
  | styleValue
      {style : Style}
      {property value : String}
      (hentry : (property, value) ∈ style.entries)
      (hvalue : Style.isValue value = false) :
      Breaks position name (.style style)
        ⟨.invalidStyle,
          "invalid value \"" ++ value ++ "\" for style property \"" ++ property ++ "\"", position⟩
  | invalidAnimation
      {value : String}
      {problem : AnimationProblem}
      (hname : name = Attribute.animateName)
      (hread : Animation.read value = .error problem) :
      Breaks position name (.text value) ⟨.invalidAnimation, problem.message, position⟩

/-- The errors of an attribute are those that its value breaks a rule with. -/
theorem Attribute.mem_errors_iff
    {position : Position}
    {name : String}
    {value : Attribute}
    {d : Diagnostic} :
    d ∈ value.errors position name ↔ Breaks position name value d := by
  constructor
  · intro hd
    cases value with
    | directive target =>
        rw [errors] at hd
        split_ifs at hd with hblank
        · rw [List.mem_singleton.1 hd]
          exact .emptyDirective hblank
        · cases hd
    | style declarations =>
        obtain ⟨⟨property, value⟩, hentry, hd⟩ := List.mem_flatMap.1 hd
        rcases List.mem_append.1 hd with hd | hd <;> split_ifs at hd with hok
        · cases hd
        · rw [List.mem_singleton.1 hd]
          exact .styleProperty hentry (Bool.eq_false_iff.2 hok)
        · cases hd
        · rw [List.mem_singleton.1 hd]
          exact .styleValue hentry (Bool.eq_false_iff.2 hok)
    | text value =>
        rw [errors] at hd
        split_ifs at hd with hname
        · cases hread : Animation.read value with
          | ok a =>
              rw [hread] at hd
              cases hd
          | error problem =>
              rw [hread] at hd
              rw [List.mem_singleton.1 hd]
              exact .invalidAnimation hname hread
        · cases hd
  · intro hd
    cases hd with
    | emptyDirective hblank =>
        simp [errors, hblank]
    | styleProperty hentry hproperty =>
        exact List.mem_flatMap.2 ⟨_, hentry, by simp [hproperty]⟩
    | styleValue hentry hvalue =>
        exact List.mem_flatMap.2 ⟨_, hentry, by simp [hvalue]⟩
    | invalidAnimation hname hread =>
        simp [errors, hname, hread]

/-- The complaints about those of some names that are no identifiers. -/
def Diagnostic.aboutNames (complaint : String → Diagnostic) (names : List String) :
    List Diagnostic :=
  (names.filter fun name => !isIdentifier name).map complaint

theorem Header.errors_eq
    (h : Header) :
    h.errors =
      Diagnostic.aboutNames (.invalidTag h.position) [h.tag] ++
      Diagnostic.aboutNames (.invalidId h.position) h.id.toList ++
      Diagnostic.aboutNames (.invalidClass h.position) h.classes ++
      h.attributes.entries.flatMap fun entry => entry.2.errors h.position entry.1 := by
  have htag : h.tagErrors = Diagnostic.aboutNames (.invalidTag h.position) [h.tag] := by
    cases hname : isIdentifier h.tag <;>
      simp [tagErrors, Diagnostic.aboutNames, Diagnostic.invalidTag, hname]
  have hid : h.idErrors = Diagnostic.aboutNames (.invalidId h.position) h.id.toList := by
    cases hid : h.id with
    | none => simp [idErrors, Diagnostic.aboutNames, hid]
    | some id =>
        cases hname : isIdentifier id <;>
          simp [idErrors, Diagnostic.aboutNames, Diagnostic.invalidId, hid, hname]
  have hclasses :
      h.classErrors = Diagnostic.aboutNames (.invalidClass h.position) h.classes := by
    rw [classErrors, Diagnostic.aboutNames]
    induction h.classes with
    | nil => rfl
    | cons name rest ih =>
        rw [List.flatMap_cons, ih]
        cases hname : isIdentifier name <;> simp [Diagnostic.invalidClass, hname]
  rw [errors, htag, hid, hclasses, attributeErrors]

/-! ## The warnings of one element -/

namespace Attribute

/-- Whether an attribute animates its element. -/
def isAnimation : String × Attribute → Bool
  | (name, .text _) => name = animateName
  | _ => false

/-- Whether an attribute has a name that is kept for directives and is none. -/
def isUnknownDirective : String × Attribute → Bool
  | (name, .text _) => isReserved name
  | _ => false

theorem isUnknownDirective_eq_true_iff
    {entry : String × Attribute} :
    isUnknownDirective entry = true ↔
      ∃ name value, entry = (name, .text value) ∧ isReserved name = true := by
  obtain ⟨name, value⟩ := entry
  cases value <;> simp [isUnknownDirective]

theorem fst_eq_of_isAnimation
    {entry : String × Attribute}
    (h : isAnimation entry = true) :
    entry.1 = animateName := by
  obtain ⟨name, value⟩ := entry
  cases value with
  | text value => simpa [isAnimation] using h
  | _ => cases h

/-- The attribute that animates an element is not kept for directives. -/
theorem not_isReserved_animateName : isReserved animateName = false := by
  decide +kernel

/-- The warnings of an attribute behind `animated` animated elements. -/
def warningsBehind (threshold : Nat) (position : Position) (animated : Nat)
    (entry : String × Attribute) : List Diagnostic :=
  if isAnimation entry then
    (if animated = 0 then [.reducedMotion position] else []) ++
      if animated = threshold then [.excessAnimation position threshold] else []
  else if isUnknownDirective entry then [.unknownDirective position entry.1]
  else []

end Attribute

namespace Visitor

open Attribute

variable (position : Position) (v : Visitor) (entry : String × Attribute)

/-- One more animation warns if it is the first, and if it is one too many. -/
theorem warnings_countAnimation :
    (v.countAnimation position).validation.warnings =
      v.validation.warnings ++
        ((if v.animated = 0 then [.reducedMotion position] else []) ++
          if v.animated = v.threshold then [.excessAnimation position v.threshold] else []) := by
  have hone : v.animated + 1 = 1 ↔ v.animated = 0 := by omega
  have hmore : v.animated + 1 = v.threshold + 1 ↔ v.animated = v.threshold := by omega
  simp only [countAnimation, hone]
  by_cases hfirst : v.animated = 0
  · rw [if_pos hfirst, if_pos hfirst, report_of_warning rfl]
    simp only [addWarnings_animated, addWarnings_threshold, hmore]
    split_ifs
    · rw [report_of_warning rfl]
      simp [Diagnostic.reducedMotion, Diagnostic.excessAnimation]
    · simp [Diagnostic.reducedMotion]
  · rw [if_neg hfirst, if_neg hfirst]
    simp only [hmore]
    split_ifs
    · rw [report_of_warning rfl]
      simp [Diagnostic.excessAnimation]
    · simp

theorem countAnimation_counts :
    (v.countAnimation position).animated = v.animated + 1 ∧
      (v.countAnimation position).ids = v.ids ∧
      (v.countAnimation position).threshold = v.threshold := by
  simp only [countAnimation]
  split_ifs <;> exact ⟨rfl, rfl, rfl⟩

/-- Visiting an attribute gives its warnings and counts it if it animates. -/
theorem visitAttribute_adds :
    (v.visitAttribute position entry).validation.warnings =
        v.validation.warnings ++ warningsBehind v.threshold position v.animated entry ∧
      (v.visitAttribute position entry).animated =
        v.animated + [entry].countP isAnimation ∧
      (v.visitAttribute position entry).ids = v.ids ∧
      (v.visitAttribute position entry).threshold = v.threshold := by
  obtain ⟨name, value⟩ := entry
  rw [visitAttribute, reportAll_of_errors fun d hd => Attribute.severity_of_mem_errors hd]
  cases value with
  | text value =>
      by_cases hname : name = animateName
      · subst hname
        simp only [warningsBehind, isAnimation, decide_true, if_true, List.countP_singleton]
        exact ⟨warnings_countAnimation .., countAnimation_counts ..⟩
      · by_cases hreserved : isReserved name = true
        · simp only [hname, hreserved, if_true, if_false]
          rw [report_of_warning rfl]
          simp [warningsBehind, isAnimation, isUnknownDirective, hname, hreserved,
            Diagnostic.unknownDirective]
        · simp [warningsBehind, isAnimation, isUnknownDirective, hname, hreserved]
  | _ => simp [warningsBehind, isAnimation, isUnknownDirective]

/-- Only an animation looks at the count, and there is at most one. -/
theorem foldl_visitAttribute_adds
    {entries : List (String × Attribute)}
    (hkeys : (entries.map Prod.fst).Nodup)
    (animated : Nat)
    (hcount : ∀ entry ∈ entries, isAnimation entry = true → v.animated = animated) :
    let visited := entries.foldl (visitAttribute position) v
    visited.validation.warnings = v.validation.warnings ++
        entries.flatMap (warningsBehind v.threshold position animated) ∧
      visited.animated = v.animated + entries.countP isAnimation ∧
      visited.ids = v.ids ∧ visited.threshold = v.threshold := by
  induction entries generalizing v with
  | nil =>
      simp
  | cons entry rest ih =>
      obtain ⟨hwarnings, hanimated, hids, hthreshold⟩ := v.visitAttribute_adds position entry
      rw [List.map_cons, List.nodup_cons] at hkeys
      have hnow : warningsBehind v.threshold position v.animated entry =
          warningsBehind v.threshold position animated entry := by
        by_cases hentry : isAnimation entry = true
        · rw [hcount entry List.mem_cons_self hentry]
        · simp [warningsBehind, hentry]
      have hlater : ∀ other ∈ rest, isAnimation other = true →
          (v.visitAttribute position entry).animated = animated := by
        intro other hother hanimation
        -- two animations would have the same name
        have hentry : ¬isAnimation entry = true := fun hentry => hkeys.1 (List.mem_map.2
          ⟨other, hother, (fst_eq_of_isAnimation hanimation).trans
            (fst_eq_of_isAnimation hentry).symm⟩)
        simpa [hanimated, hentry] using
          hcount other (List.mem_cons_of_mem _ hother) hanimation
      obtain ⟨hwarnings', hanimated', hids', hthreshold'⟩ := ih _ hkeys.2 hlater
      rw [List.foldl_cons]
      refine ⟨?_, ?_, hids'.trans hids, hthreshold'.trans hthreshold⟩
      · rw [hwarnings', hwarnings, hthreshold, hnow, List.flatMap_cons, List.append_assoc]
      · rw [hanimated', hanimated, Nat.add_assoc, ← List.countP_append, List.singleton_append]

end Visitor

/-- Where no key occurs twice, only the first attribute for the name of animations can be one. -/
theorem Attribute.filter_isAnimation
    {entries : List (String × Attribute)}
    (hkeys : (entries.map Prod.fst).Nodup) :
    entries.filter isAnimation =
      ((entries.lookup animateName).toList.map (Prod.mk animateName)).filter isAnimation := by
  induction entries with
  | nil =>
      rfl
  | cons entry rest ih =>
      obtain ⟨name, value⟩ := entry
      rw [List.map_cons, List.nodup_cons] at hkeys
      rw [Dict.lookup_cons]
      by_cases hname : animateName = name
      · have hrest : rest.filter isAnimation = [] := by
          rw [List.filter_eq_nil_iff]
          intro entry he hentry
          exact hkeys.1 (List.mem_map.2 ⟨entry, he, (fst_eq_of_isAnimation hentry).trans hname⟩)
        simp [List.filter_cons, hrest, hname]
      · have hhead : isAnimation (name, value) = false :=
          Bool.eq_false_iff.2 fun hentry => hname (fst_eq_of_isAnimation hentry).symm
        rw [if_neg hname, List.filter_cons_of_neg (by simp [hhead]), ih hkeys.2]

/-- An element is animated by one attribute or by none. -/
theorem Header.countP_isAnimation
    (h : Header) :
    h.attributes.entries.countP Attribute.isAnimation = if h.isAnimated then 1 else 0 := by
  rw [List.countP_eq_length_filter, Attribute.filter_isAnimation h.attributes.nodup]
  cases hvalue : h.attributes.entries.lookup Attribute.animateName with
  | none => simp [isAnimated, animation, Dict.get?, hvalue]
  | some value =>
      cases value <;> simp [isAnimated, animation, Dict.get?, hvalue, Attribute.isAnimation]

/-- An element has one animation at most, and is animated if it has one. -/
theorem Header.exists_isAnimation_iff
    {h : Header} :
    (∃ entry ∈ h.attributes.entries, Attribute.isAnimation entry = true) ↔ h.isAnimated = true := by
  rw [← List.countP_pos_iff, countP_isAnimation]
  cases h.isAnimated <;> simp

namespace Element

/-- The rules for warnings of an element behind others. -/
inductive Warrants (threshold : Nat) (before : List Element) (e : Element) : Diagnostic → Prop
  | duplicateId
      {id : String}
      {earlier between : List Element}
      {first : Element}
      (hid : e.header.id = some id)
      (hbefore : before = earlier ++ first :: between)
      (hfirst : first.header.id = some id)
      (hearlier : ∀ other ∈ earlier, other.header.id ≠ some id) :
      Warrants threshold before e (.duplicateId e.header.position id first.header.position)
  | reducedMotion
      (hanimated : e.header.isAnimated = true)
      (hbefore : ∀ other ∈ before, other.header.isAnimated = false) :
      Warrants threshold before e (.reducedMotion e.header.position)
  | excessAnimation
      (hanimated : e.header.isAnimated = true)
      (hbefore : (before.countP fun other => other.header.isAnimated) = threshold) :
      Warrants threshold before e (.excessAnimation e.header.position threshold)
  | unknownDirective
      {name value : String}
      (hentry : (name, .text value) ∈ e.header.attributes.entries)
      (hreserved : Attribute.isReserved name = true) :
      Warrants threshold before e (.unknownDirective e.header.position name)
  | voidChildren
      (hvoid : e.header.isVoid = true)
      (hchildren : e.children ≠ []) :
      Warrants threshold before e (.voidChildren e.header.position e.header.tag)

/-- The warning about an id that one of the elements before has. -/
def idWarningsAfter (before : List Element) (e : Element) : List Diagnostic :=
  e.header.id.toList.flatMap fun id =>
    (before.find? fun other => other.header.id = some id).toList.map fun first =>
      .duplicateId e.header.position id first.header.position

/-- The warnings of an element behind others. -/
def warningsAfter (threshold : Nat) (before : List Element) (e : Element) : List Diagnostic :=
  e.idWarningsAfter before ++
    e.header.attributes.entries.flatMap
      (Attribute.warningsBehind threshold e.header.position
        (before.countP fun other => other.header.isAnimated)) ++
    e.voidWarnings

variable {threshold : Nat} {before : List Element} {e : Element} {d : Diagnostic}

/-- An id is warned about if an earlier element has it, and the first of them is named. -/
theorem mem_idWarningsAfter_iff :
    d ∈ e.idWarningsAfter before ↔
      ∃ id earlier first between, e.header.id = some id ∧ before = earlier ++ first :: between ∧
        first.header.id = some id ∧ (∀ other ∈ earlier, other.header.id ≠ some id) ∧
        d = .duplicateId e.header.position id first.header.position := by
  simp only [idWarningsAfter, List.mem_flatMap, List.mem_map, Option.mem_toList,
    List.find?_eq_some_iff_append, decide_eq_true_eq]
  constructor
  · rintro ⟨id, hid, first, ⟨hfirst, earlier, between, hbefore, hearlier⟩, rfl⟩
    exact ⟨id, earlier, first, between, hid, hbefore, hfirst, by simpa using hearlier, rfl⟩
  · rintro ⟨id, earlier, first, between, hid, hbefore, hfirst, hearlier, rfl⟩
    exact ⟨id, hid, first, ⟨hfirst, earlier, between, hbefore, by simpa using hearlier⟩, rfl⟩

theorem mem_voidWarnings_iff :
    d ∈ e.voidWarnings ↔
      e.header.isVoid = true ∧ e.children ≠ [] ∧
        d = .voidChildren e.header.position e.header.tag := by
  cases hvoid : e.header.isVoid <;> cases hchildren : e.children <;>
    simp [voidWarnings, hvoid, hchildren, Diagnostic.voidChildren]

end Element

/-- What an attribute is warned about depends on it and on how many animations came before. -/
theorem Attribute.mem_warningsBehind_iff
    {threshold animated : Nat}
    {position : Position}
    {entry : String × Attribute}
    {d : Diagnostic} :
    d ∈ warningsBehind threshold position animated entry ↔
      (isAnimation entry = true ∧
        (animated = 0 ∧ d = .reducedMotion position ∨
          animated = threshold ∧ d = .excessAnimation position threshold)) ∨
      (isUnknownDirective entry = true ∧ d = .unknownDirective position entry.1) := by
  have hapart : isAnimation entry = true → isUnknownDirective entry = false := by
    intro hanimation
    refine Bool.eq_false_iff.2 fun hunknown => ?_
    obtain ⟨name, value, rfl, hreserved⟩ := isUnknownDirective_eq_true_iff.1 hunknown
    have hname : name = animateName := fst_eq_of_isAnimation hanimation
    rw [hname, not_isReserved_animateName] at hreserved
    cases hreserved
  rw [warningsBehind]
  by_cases hanimation : isAnimation entry = true
  · simp only [hanimation, if_true, hapart hanimation, List.mem_append, true_and,
      Bool.false_eq_true, false_and, or_false]
    split_ifs <;> simp_all
  · by_cases hunknown : isUnknownDirective entry = true <;> simp [hanimation, hunknown]

theorem Attribute.rule_of_mem_warningsBehind
    {threshold animated : Nat}
    {position : Position}
    {entry : String × Attribute}
    {d : Diagnostic}
    (hd : d ∈ warningsBehind threshold position animated entry) :
    d.rule ≠ .duplicateId ∧ d.rule ≠ .voidChildren := by
  rcases mem_warningsBehind_iff.1 hd with ⟨-, ⟨-, rfl⟩ | ⟨-, rfl⟩⟩ | ⟨-, rfl⟩ <;>
    exact ⟨nofun, nofun⟩

/-- No attribute is warned about twice, since no two have one name. -/
theorem Attribute.nodup_flatMap_warningsBehind
    {threshold animated : Nat}
    {position : Position}
    {entries : List (String × Attribute)}
    (hkeys : (entries.map Prod.fst).Nodup) :
    (entries.flatMap (warningsBehind threshold position animated)).Nodup := by
  rw [List.nodup_flatMap]
  constructor
  · intro entry hentry
    rw [warningsBehind]
    split_ifs <;> simp [Diagnostic.reducedMotion, Diagnostic.excessAnimation]
  · refine (List.pairwise_map.1 hkeys).imp fun {entry other} hne d hd hother => hne ?_
    rw [mem_warningsBehind_iff] at hd hother
    -- an animation and an unknown directive give diagnostics of different rules
    rcases hd with ⟨hentry, hd⟩ | ⟨-, rfl⟩
    · rcases hother with ⟨hother, -⟩ | ⟨-, rfl⟩
      · rw [fst_eq_of_isAnimation hentry, fst_eq_of_isAnimation hother]
      · rcases hd with ⟨-, hd⟩ | ⟨-, hd⟩ <;> cases congrArg Diagnostic.rule hd
    · rcases hother with ⟨-, ⟨-, hd⟩ | ⟨-, hd⟩⟩ | ⟨-, hd⟩
      · cases congrArg Diagnostic.rule hd
      · cases congrArg Diagnostic.rule hd
      · exact Diagnostic.unknownDirective_injective _ hd

namespace Element

variable {threshold : Nat} {before : List Element} {e : Element} {d : Diagnostic}

/-- The warnings of an element are those that the rules warrant. -/
theorem mem_warningsAfter_iff :
    d ∈ e.warningsAfter threshold before ↔ e.Warrants threshold before d := by
  have hnone : (before.countP fun other => other.header.isAnimated) = 0 ↔
      ∀ other ∈ before, other.header.isAnimated = false := by
    simp
  rw [warningsAfter, List.mem_append, List.mem_append, mem_idWarningsAfter_iff,
    mem_voidWarnings_iff, List.mem_flatMap]
  simp only [Attribute.mem_warningsBehind_iff]
  constructor
  · rintro ((⟨id, earlier, first, between, hid, hbefore, hfirst, hearlier, rfl⟩ |
      ⟨entry, hentry, hcases⟩) | ⟨hvoid, hchildren, rfl⟩)
    · exact .duplicateId hid hbefore hfirst hearlier
    · rcases hcases with ⟨hanimation, hcount⟩ | ⟨hunknown, rfl⟩
      · have hanimated := Header.exists_isAnimation_iff.1 ⟨entry, hentry, hanimation⟩
        rcases hcount with ⟨hzero, rfl⟩ | ⟨hcount, rfl⟩
        · exact .reducedMotion hanimated (hnone.1 hzero)
        · exact .excessAnimation hanimated hcount
      · obtain ⟨name, value, rfl, hreserved⟩ := Attribute.isUnknownDirective_eq_true_iff.1 hunknown
        exact .unknownDirective hentry hreserved
    · exact .voidChildren hvoid hchildren
  · intro hd
    cases hd with
    | duplicateId hid hbefore hfirst hearlier =>
        exact .inl (.inl ⟨_, _, _, _, hid, hbefore, hfirst, hearlier, rfl⟩)
    | reducedMotion hanimated hbefore =>
        obtain ⟨entry, hentry, hanimation⟩ := Header.exists_isAnimation_iff.2 hanimated
        exact .inl (.inr ⟨entry, hentry, .inl ⟨hanimation, .inl ⟨hnone.2 hbefore, rfl⟩⟩⟩)
    | excessAnimation hanimated hbefore =>
        obtain ⟨entry, hentry, hanimation⟩ := Header.exists_isAnimation_iff.2 hanimated
        exact .inl (.inr ⟨entry, hentry, .inl ⟨hanimation, .inr ⟨hbefore, rfl⟩⟩⟩)
    | unknownDirective hentry hreserved =>
        exact .inl (.inr ⟨_, hentry,
          .inr ⟨Attribute.isUnknownDirective_eq_true_iff.2 ⟨_, _, rfl, hreserved⟩, rfl⟩⟩)
    | voidChildren hvoid hchildren =>
        exact .inr ⟨hvoid, hchildren, rfl⟩

/-- The first animated element is the one that is reminded of those who want less motion. -/
theorem warrants_reducedMotion_iff
    (before : List Element)
    (e : Element)
    (d : Diagnostic) :
    e.Warrants threshold before d ∧ d.rule = .reducedMotion ↔
      (e.header.isAnimated = true ∧
        (before.countP fun other => other.header.isAnimated) = 0) ∧
      d = .reducedMotion e.header.position := by
  constructor
  · rintro ⟨hd, hrule⟩
    cases hd with
    | reducedMotion hanimated hbefore => exact ⟨⟨hanimated, by simpa using hbefore⟩, rfl⟩
    | _ => cases hrule
  · rintro ⟨⟨hanimated, hbefore⟩, rfl⟩
    exact ⟨.reducedMotion hanimated (by simpa using hbefore), rfl⟩

/-- The animated element with as many before it as are allowed is the one that is warned about. -/
theorem warrants_excessAnimation_iff
    (before : List Element)
    (e : Element)
    (d : Diagnostic) :
    e.Warrants threshold before d ∧ d.rule = .excessAnimation ↔
      (e.header.isAnimated = true ∧
        (before.countP fun other => other.header.isAnimated) = threshold) ∧
      d = .excessAnimation e.header.position threshold := by
  constructor
  · rintro ⟨hd, hrule⟩
    cases hd with
    | excessAnimation hanimated hbefore => exact ⟨⟨hanimated, hbefore⟩, rfl⟩
    | _ => cases hrule
  · rintro ⟨⟨hanimated, hbefore⟩, rfl⟩
    exact ⟨.excessAnimation hanimated hbefore, rfl⟩

/-- No element is warned about twice for one reason. -/
theorem nodup_warningsAfter :
    (e.warningsAfter threshold before).Nodup := by
  have hids : (e.idWarningsAfter before).Nodup := by
    rw [idWarningsAfter]
    cases e.header.id with
    | none => simp
    | some id =>
        cases hfirst : before.find? fun other => other.header.id = some id <;> simp [hfirst]
  have hvoid : e.voidWarnings.Nodup := by
    rw [voidWarnings]
    split_ifs <;> simp
  rw [warningsAfter, List.nodup_append', List.nodup_append']
  refine ⟨⟨hids, Attribute.nodup_flatMap_warningsBehind e.header.attributes.nodup, ?_⟩, hvoid, ?_⟩
  · intro d hd hother
    obtain ⟨_, _, _, _, -, -, -, -, rfl⟩ := mem_idWarningsAfter_iff.1 hd
    obtain ⟨entry, -, hother⟩ := List.mem_flatMap.1 hother
    exact (Attribute.rule_of_mem_warningsBehind hother).1 rfl
  · intro d hd hother
    obtain ⟨-, -, rfl⟩ := mem_voidWarnings_iff.1 hother
    rcases List.mem_append.1 hd with hd | hd
    · obtain ⟨_, _, _, _, -, -, -, -, hd⟩ := mem_idWarningsAfter_iff.1 hd
      cases congrArg Diagnostic.rule hd
    · obtain ⟨entry, -, hd⟩ := List.mem_flatMap.1 hd
      exact (Attribute.rule_of_mem_warningsBehind hd).2 rfl

/-- The warnings of elements behind others, element by element. -/
def warningGroups (threshold : Nat) (before : List Element) : List Element → List (List Diagnostic)
  | [] => []
  | e :: rest => e.warningsAfter threshold before :: warningGroups threshold (before ++ [e]) rest

theorem getElem?_warningGroups
    (elements : List Element)
    (i : Nat) :
    (warningGroups threshold before elements)[i]? =
      elements[i]?.map (warningsAfter threshold (before ++ elements.take i)) := by
  induction elements generalizing before i with
  | nil =>
      simp [warningGroups]
  | cons e rest ih =>
      cases i with
      | zero => simp [warningGroups]
      | succ i =>
          rw [warningGroups, List.getElem?_cons_succ, ih, List.getElem?_cons_succ,
            List.take_succ_cons, List.append_assoc, List.singleton_append]

theorem length_warningGroups
    (elements : List Element) :
    (warningGroups threshold before elements).length = elements.length := by
  induction elements generalizing before with
  | nil => rfl
  | cons e rest ih => rw [warningGroups, List.length_cons, List.length_cons, ih]

/-- A rule that speaks of a condition warns once if it holds. -/
theorem filter_warningsAfter
    {rule : Rule}
    {warning : Diagnostic}
    {condition : Prop}
    [Decidable condition]
    (hrule : ∀ d, e.Warrants threshold before d ∧ d.rule = rule ↔ condition ∧ d = warning) :
    ((e.warningsAfter threshold before).filter fun d => d.rule = rule) =
      if condition then [warning] else [] := by
  have hmem : ∀ d, d ∈ ((e.warningsAfter threshold before).filter fun d => d.rule = rule) ↔
      condition ∧ d = warning := by
    intro d
    rw [List.mem_filter, decide_eq_true_eq, mem_warningsAfter_iff, hrule]
  split_ifs with hcondition
  · refine List.perm_singleton.1 ((List.perm_ext_iff_of_nodup ?_ (by simp)).2 fun d => ?_)
    · exact nodup_warningsAfter.filter _
    · rw [hmem, List.mem_singleton, and_iff_right hcondition]
  · exact List.eq_nil_iff_forall_not_mem.2 fun d hd => hcondition ((hmem d).1 hd).1

/-- A rule that asks for a warning at the animated element behind `count` others asks for it once,
and only if there is such an element. -/
theorem filter_flatten_warningGroups
    {rule : Rule}
    {warning : Element → Diagnostic}
    {count : Nat}
    (hrule : ∀ before e d, e.Warrants threshold before d ∧ d.rule = rule ↔
      (e.header.isAnimated = true ∧
        (before.countP fun other => other.header.isAnimated) = count) ∧ d = warning e)
    (elements : List Element) :
    ((warningGroups threshold before elements).flatten.filter fun d => d.rule = rule) =
      if (before.countP fun other => other.header.isAnimated) ≤ count then
        (elements.filter fun e => e.header.isAnimated)[
          count - before.countP fun other => other.header.isAnimated]?.toList.map warning
      else [] := by
  induction elements generalizing before with
  | nil =>
      simp [warningGroups]
  | cons e rest ih =>
      rw [warningGroups, List.flatten_cons, List.filter_append,
        filter_warningsAfter (hrule before e), ih, List.countP_append, List.countP_singleton,
        List.filter_cons]
      generalize (before.countP fun other => other.header.isAnimated) = seen
      cases e.header.isAnimated with
      | false =>
          simp
      | true =>
          simp only [true_and, if_true]
          rcases lt_trichotomy seen count with hlt | rfl | hgt
          · obtain ⟨more, rfl⟩ := Nat.exists_eq_add_of_lt hlt
            have hnow : seen + more + 1 - seen = more + 1 := by omega
            have hnext : seen + more + 1 - (seen + 1) = more := by omega
            rw [if_neg (by omega), if_pos (by omega), if_pos (by omega), hnow, hnext,
              List.getElem?_cons_succ, List.nil_append]
          · simp
          · rw [if_neg (by omega), if_neg (by omega), if_neg (by omega), List.append_nil]

end Element

/-! ## What is remembered -/

namespace Visitor

variable {v : Visitor} {before : List Element}

/-- Whether what is remembered is what the rules ask of the elements before. -/
structure Reflects
    (v : Visitor)
    (before : List Element) : Prop where
  animated : v.animated = before.countP fun other => other.header.isAnimated
  ids : ∀ id, v.ids.get? id =
    (before.find? fun other => other.header.id = some id).map fun first => first.header.position

namespace Reflects

/-- The id of one more element is warned about and remembered as the rules ask. -/
theorem visitId
    (h : v.Reflects before)
    (e : Element) :
    let visited := e.header.id.elim v (v.visitId e.header.position)
    visited.validation.warnings = v.validation.warnings ++ e.idWarningsAfter before ∧
      visited.animated = v.animated ∧ visited.threshold = v.threshold ∧
      ∀ id, visited.ids.get? id = ((before ++ [e]).find? fun other =>
        other.header.id = some id).map fun first => first.header.position := by
  simp only [Element.idWarningsAfter, List.find?_append]
  cases hid : e.header.id with
  | none =>
      simp [hid, h.ids]
  | some own =>
      simp only [Option.elim_some, Visitor.visitId, h.ids own, Option.toList_some,
        List.flatMap_singleton]
      cases hfirst : before.find? fun other => other.header.id = some own with
      | none =>
          refine ⟨by simp, rfl, rfl, fun id => ?_⟩
          simp only [Option.map_none, Dict.get?, Dict.insert, Dict.lookup_put]
          have hold := h.ids id
          rw [Dict.get?] at hold
          by_cases hown : id = own
          · simp [hown, hfirst, hid]
          · simp [hown, hold, hid, Ne.symm hown]
      | some first =>
          -- an id that was used before keeps its first place
          simp only [Option.map_some]
          rw [report_of_warning rfl]
          refine ⟨by simp [Diagnostic.duplicateId], rfl, rfl, fun id => ?_⟩
          by_cases hown : own = id
          · simp [h.ids, ← hown, hfirst]
          · simp [h.ids, hid, hown]

/-- One more element is warned about and remembered as the rules ask. -/
theorem visit
    (h : v.Reflects before)
    (e : Element) :
    (v.visit e).validation.warnings =
        v.validation.warnings ++ e.warningsAfter v.threshold before ∧
      (v.visit e).threshold = v.threshold ∧ (v.visit e).Reflects (before ++ [e]) := by
  have herrors : ∀ {w : Visitor} ds, w.Reflects before → (w.addErrors ds).Reflects before :=
    fun _ hw => ⟨hw.animated, hw.ids⟩
  rw [Visitor.visit, reportAll_of_warnings fun d => Element.severity_of_mem_voidWarnings,
    reportAll_of_errors fun d => Header.severity_of_mem_classErrors,
    reportAll_of_errors fun d => Header.severity_of_mem_idErrors,
    reportAll_of_errors fun d => Header.severity_of_mem_tagErrors]
  obtain ⟨hids, hanimated, hthreshold, hlookup⟩ :=
    visitId (herrors e.header.idErrors (herrors e.header.tagErrors h)) e
  generalize e.header.id.elim _ _ = w at hids hanimated hthreshold hlookup ⊢
  obtain ⟨hattributes, hcount, hkept, hsame⟩ := foldl_visitAttribute_adds e.header.position
    (w.addErrors e.header.classErrors) e.header.attributes.nodup w.animated fun _ _ _ => rfl
  simp only [addErrors_validation_warnings, addErrors_animated, addErrors_threshold,
    addErrors_ids] at hids hanimated hthreshold hattributes hcount hkept hsame
  refine ⟨?_, hsame.trans hthreshold, ?_, fun id => ?_⟩
  · rw [addWarnings_validation_warnings, hattributes, hids, hthreshold, hanimated, h.animated,
      Element.warningsAfter]
    simp only [List.append_assoc]
  · rw [addWarnings_animated, hcount, hanimated, h.animated, Header.countP_isAnimation,
      List.countP_append, List.countP_singleton]
  · rw [addWarnings_ids, hkept, hlookup]

/-- The warnings of elements come one element after another. -/
theorem warnings_foldl_visit
    (h : v.Reflects before)
    (elements : List Element) :
    (elements.foldl Visitor.visit v).validation.warnings =
      v.validation.warnings ++
        (Element.warningGroups v.threshold before elements).flatten := by
  induction elements generalizing v before with
  | nil =>
      simp [Element.warningGroups]
  | cons e rest ih =>
      obtain ⟨hwarnings, hthreshold, hnext⟩ := h.visit e
      rw [List.foldl_cons, ih hnext, hwarnings, hthreshold, Element.warningGroups,
        List.flatten_cons, List.append_assoc]

end Reflects

end Visitor

namespace Document

/-- Validation gives what its rules ask for. -/
theorem validate_follows_rules
    (document : Document)
    (file : String)
    (threshold : Nat) :
    let elements := Node.elementsList document
    let validation := document.validate file threshold
    validation.file = file ∧
    (validation.errors = elements.flatMap fun e =>
      Diagnostic.aboutNames (.invalidTag e.header.position) [e.header.tag] ++
      Diagnostic.aboutNames (.invalidId e.header.position) e.header.id.toList ++
      Diagnostic.aboutNames (.invalidClass e.header.position) e.header.classes ++
      e.header.attributes.entries.flatMap fun entry => entry.2.errors e.header.position entry.1) ∧
    (∀ position name (value : Attribute) d,
      d ∈ value.errors position name ↔ value.Breaks position name d) ∧
    (∀ other, (document.validate file other).errors = validation.errors) ∧
    (∃ groups : List (List Diagnostic),
      validation.warnings = groups.flatten ∧ groups.length = elements.length ∧
      ∀ (i : Nat) (e : Element) (group : List Diagnostic),
        elements[i]? = some e → groups[i]? = some group →
          group.Nodup ∧ ∀ d, d ∈ group ↔ e.Warrants threshold (elements.take i) d) ∧
    (validation.warnings.filter fun d => d.rule = .reducedMotion) =
      (elements.find? fun e => e.header.isAnimated).toList.map
        (fun e => .reducedMotion e.header.position) ∧
    (validation.warnings.filter fun d => d.rule = .excessAnimation) =
      (elements.filter fun e => e.header.isAnimated)[threshold]?.toList.map
        (fun e => .excessAnimation e.header.position threshold) := by
  intro elements validation
  have hwarnings : validation.warnings = (Element.warningGroups threshold [] elements).flatten := by
    simp only [validation, validate, elements_eq_elementsList]
    exact Visitor.Reflects.warnings_foldl_visit ⟨rfl, fun _ => rfl⟩ elements
  refine ⟨?_, ?_, fun _ _ _ _ => Attribute.mem_errors_iff, fun other => ?_, ?_, ?_, ?_⟩
  · exact file_validate document file threshold
  · simp only [validation, elements, errors_validate, elements_eq_elementsList, Header.errors_eq]
  · simp only [validation, errors_validate]
  · refine ⟨_, hwarnings, Element.length_warningGroups elements, fun i e group he hgroup => ?_⟩
    rw [Element.getElem?_warningGroups, he, List.nil_append, Option.map_some,
      Option.some.injEq] at hgroup
    subst hgroup
    exact ⟨Element.nodup_warningsAfter, fun d => Element.mem_warningsAfter_iff⟩
  · rw [hwarnings, Element.filter_flatten_warningGroups Element.warrants_reducedMotion_iff]
    simp [elements, ← List.head?_eq_getElem?]
  · rw [hwarnings, Element.filter_flatten_warningGroups Element.warrants_excessAnimation_iff]
    simp [elements]

/-- Two animated elements with one id that is no name, the inner one void and with content. -/
def restless : Document :=
  [.element ⟨"div", some "1a", [], .ofList [("animate", .text "spin 1s")], ⟨1, 1⟩, none⟩
    [.element
      ⟨"br", some "1a", [], .ofList [("⚡-go", .text "x"), ("animate", .text "spin 1s")], ⟨2, 3⟩,
        none⟩
      [.text ⟨"lost", ⟨2, 9⟩, none⟩]]]

theorem validate_follows_rules_restless :
    ((restless.validate "a" 0).warnings.filter fun d => d.rule = .excessAnimation) =
      [.excessAnimation ⟨1, 1⟩ 0] ∧
    ((restless.validate "a" 1).warnings.filter fun d => d.rule = .excessAnimation) =
      [.excessAnimation ⟨2, 3⟩ 1] ∧
    ((restless.validate "a" 2).warnings.filter fun d => d.rule = .excessAnimation) = [] ∧
    ((restless.validate "a" 2).warnings.filter fun d => d.rule = .reducedMotion) =
      [.reducedMotion ⟨1, 1⟩] := by
  obtain ⟨-, -, -, -, -, -, hnone⟩ := validate_follows_rules restless "a" 0
  obtain ⟨-, -, -, -, -, -, hone⟩ := validate_follows_rules restless "a" 1
  obtain ⟨-, -, -, -, -, hfirst, htwo⟩ := validate_follows_rules restless "a" 2
  refine ⟨hnone.trans ?_, hone.trans ?_, htwo.trans ?_, hfirst.trans ?_⟩ <;> decide +kernel

end Document

end BlockMarkup
