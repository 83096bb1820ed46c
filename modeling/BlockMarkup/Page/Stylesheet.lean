import BlockMarkup.Animation
import BlockMarkup.Page.Anchor

/-!
# Stylesheets

The stylesheet of a document has keyframes for every animation name that is used, in the order of
first use, and one rule for each element with an anchor.
-/

namespace BlockMarkup

structure StyleRule where
  selector : String
  declarations : List (String × String)
  deriving DecidableEq, Repr

structure Stylesheet where
  keyframes : List String
  rules : List StyleRule
  deriving DecidableEq, Repr

namespace StyleRule

def text (r : StyleRule) : String :=
  r.selector ++ " \x7b\n" ++
    Text.join "" (r.declarations.map fun (property, value) =>
      "  " ++ property ++ ": " ++ value ++ ";\n") ++
    "\x7d"

end StyleRule

namespace Header

/-- The animation of an element, if it has one that can be read. -/
def animation? (h : Header) : Option Animation :=
  match h.animation with
  | none => none
  | some value => (Animation.read value).toOption

/-- The declarations of an element's rule: those of its style, then its animation. -/
def declarations (h : Header) : List (String × String) :=
  (match h.style with
    | some style => style.entries
    | none => []) ++
  (match h.animation? with
    | some animation => [("animation", animation.text)]
    | none => [])

/-- The rule of an element. -/
def rule? (h : Header) : Option StyleRule :=
  h.anchor.map fun anchor => ⟨anchor.selector, h.declarations⟩

end Header

namespace Stylesheet

def ofDocument (document : Document) : Stylesheet :=
  let headers := document.elements.map (·.header)
  { keyframes := (headers.filterMap fun h => h.animation?.map (·.name)).eraseDups
    rules := headers.filterMap (·.rule?) }

/-- The keyframes of an animation: every animation fades in. -/
def keyframesText (name : String) : String :=
  "@keyframes " ++ name ++
    " \x7b\n  0% \x7b opacity: 0; \x7d\n  100% \x7b opacity: 1; \x7d\n\x7d"

/-- Blocks are separated by empty lines; a stylesheet without blocks is empty. -/
def text (s : Stylesheet) : String :=
  let blocks := s.keyframes.map keyframesText ++ s.rules.map StyleRule.text
  if blocks.isEmpty then "" else Text.join "\n\n" blocks ++ "\n"

end Stylesheet

/-- The text of a document's stylesheet. -/
def Document.css (document : Document) : String := (Stylesheet.ofDocument document).text

end BlockMarkup
