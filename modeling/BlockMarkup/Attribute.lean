import BlockMarkup.Style

/-!
# Attributes

An attribute has a plain text, a style or a runtime directive as its value. Which of them is decided
by the attribute's name when it is read; afterwards name and kind are independent.
-/

namespace BlockMarkup

/-- A wish to be met in the browser: call a backend endpoint, or show the data under a key. -/
inductive Directive where
  | call (endpoint : String)
  | data (key : String)
  deriving DecidableEq, Repr

namespace Directive

/-- Every directive name starts with this. -/
def mark : String := "⚡-"

def callName : String := "⚡-call"

def dataName : String := "⚡-data"

/-- The attribute name under which the directive is written in a source text. -/
def name : Directive → String
  | call _ => callName
  | data _ => dataName

/-- The endpoint or the key. -/
def target : Directive → String
  | call endpoint => endpoint
  | data key => key

end Directive

inductive Attribute where
  | text (value : String)
  | style (declarations : Style)
  | directive (directive : Directive)
  deriving DecidableEq, Repr

namespace Attribute

def styleName : String := "style"

def animateName : String := "animate"

/-- The value that an attribute called `name` has when it is written with the text `value`. The
error is a style declaration that cannot be read. -/
def derive (name value : String) : Except String Attribute :=
  if name = styleName then (Style.read value).map style
  else if name = Directive.callName then .ok (directive (.call value))
  else if name = Directive.dataName then .ok (directive (.data value))
  else .ok (text value)

/-- Whether a name is set aside for directives. -/
def isReserved (name : String) : Bool := Directive.mark.toList.isPrefixOf name.toList

end Attribute

end BlockMarkup
