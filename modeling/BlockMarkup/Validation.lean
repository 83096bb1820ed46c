import BlockMarkup.Animation
import BlockMarkup.Diagnostic
import BlockMarkup.Node

/-!
# Validating a document

Every element is visited once, in document order, and each diagnostic is kept with the others of its
severity. The errors of an element depend on that element alone. Warnings about repeated ids and
about animations also depend on the elements before it.
-/

namespace BlockMarkup

namespace Header

/-- What a name has to look like. -/
def nameRule (what : String) : String :=
  what ++ " must start with a letter and contain only letters, digits, `-` or `_`"

def tagErrors (h : Header) : List Diagnostic :=
  if isIdentifier h.tag then []
  else [⟨.invalidTag, "invalid tag name \"" ++ h.tag ++ "\"", h.position⟩]

def idErrors (h : Header) : List Diagnostic :=
  match h.id with
  | none => []
  | some id =>
    if isIdentifier id then []
    else [⟨.invalidId, "invalid id \"" ++ id ++ "\": " ++ nameRule "ids", h.position⟩]

def classErrors (h : Header) : List Diagnostic :=
  h.classes.flatMap fun name =>
    if isIdentifier name then []
    else
      [⟨.invalidClass, "invalid class \"" ++ name ++ "\": " ++ nameRule "classes", h.position⟩]

end Header

namespace Style

/-- Letters and hyphens, with at least one letter. Custom properties such as `--accent` are among
them. -/
def isProperty (property : String) : Bool :=
  property.toList.any isAsciiLetter && property.toList.all fun c => isAsciiLetter c || c = '-'

/-- Values may not hold what would end the declaration, the rule or the start tag. -/
def isValue (value : String) : Bool :=
  value.toList.all fun c => !(c = '{' || c = '}' || c = ';' || c = '<')

def errors (style : Style) (position : Position) : List Diagnostic :=
  style.entries.flatMap fun (property, value) =>
    (if isProperty property then []
      else [⟨.invalidStyle, "invalid style property \"" ++ property ++ "\"", position⟩]) ++
    (if isValue value then []
      else
        [⟨.invalidStyle,
          "invalid value \"" ++ value ++ "\" for style property \"" ++ property ++ "\"",
          position⟩])

end Style

namespace Attribute

/-- The errors of an attribute on an element at `position`. -/
def errors (position : Position) (name : String) : Attribute → List Diagnostic
  | directive d =>
    if Text.isAllBlank d.target then
      [⟨.emptyDirective, "`" ++ name ++ "` needs a non-empty value", position⟩]
    else []
  | style declarations => declarations.errors position
  | text value =>
    if name = animateName then
      match Animation.read value with
      | .ok _ => []
      | .error problem => [⟨.invalidAnimation, problem.message, position⟩]
    else []

end Attribute

/-- The warning about content that will not be shown. -/
def Element.voidWarnings (e : Element) : List Diagnostic :=
  if e.header.isVoid && !e.children.isEmpty then
    [⟨.voidChildren,
      "<" ++ e.header.tag ++ "> cannot have content, its children are ignored",
      e.header.position⟩]
  else []

/-- What is known while elements are visited: the diagnostics so far, where each id was first used,
and how many elements were animated. More than `threshold` of these are worth a warning. -/
structure Visitor where
  validation : Validation
  ids : Dict Position
  animated : Nat
  threshold : Nat

namespace Visitor

def start (file : String) (threshold : Nat) : Visitor :=
  { validation := ⟨file, [], []⟩, ids := .empty, animated := 0, threshold }

def report (v : Visitor) (d : Diagnostic) : Visitor :=
  { v with validation := v.validation.push d }

def reportAll (v : Visitor) (ds : List Diagnostic) : Visitor := ds.foldl report v

/-- Reports an id that was used before and remembers any other. -/
def visitId (v : Visitor) (position : Position) (id : String) : Visitor :=
  match v.ids.get? id with
  | some first =>
    v.report ⟨.duplicateId, "duplicate id \"" ++ id ++ "\", first used at " ++ first.text, position⟩
  | none => { v with ids := v.ids.insert id position }

/-- Counts an animated element. The first one is reported, and the first one too many. -/
def countAnimation (v : Visitor) (position : Position) : Visitor :=
  let v := { v with animated := v.animated + 1 }
  let v :=
    if v.animated = 1 then
      v.report
        ⟨.reducedMotion, "animations should be disabled under `prefers-reduced-motion: reduce`",
          position⟩
    else v
  if v.animated = v.threshold + 1 then
    v.report
      ⟨.excessAnimation,
        "more than " ++ toString v.threshold ++ " animated elements, consider animating fewer",
        position⟩
  else v

/-- Visits an attribute of an element at `position`. -/
def visitAttribute (position : Position) (v : Visitor) (entry : String × Attribute) : Visitor :=
  let v := v.reportAll (entry.2.errors position entry.1)
  match entry.2 with
  | .text _ =>
    if entry.1 = Attribute.animateName then v.countAnimation position
    else if Attribute.isReserved entry.1 then
      v.report
        ⟨.unknownDirective, "unknown directive `" ++ entry.1 ++ "` is ignored", position⟩
    else v
  | _ => v

def visit (v : Visitor) (e : Element) : Visitor :=
  let h := e.header
  let v := (v.reportAll h.tagErrors).reportAll h.idErrors
  let v := h.id.elim v (v.visitId h.position)
  let v := v.reportAll h.classErrors
  let v := h.attributes.entries.foldl (visitAttribute h.position) v
  v.reportAll e.voidWarnings

end Visitor

/-- Validates a document. More than `threshold` animated elements are worth a warning. -/
def Document.validate (document : Document) (file : String) (threshold : Nat) : Validation :=
  (document.elements.foldl Visitor.visit (.start file threshold)).validation

end BlockMarkup
