import BlockMarkup.Node

/-!
# Anchors

An element with a style or an animation is tied to its rule in the stylesheet by an anchor, on which
page and stylesheet agree. An id is used if there is one. Otherwise an animated element, and a
styled one that has classes, gets a class made from its place in the source. An element that is only
styled has no anchor and keeps its style in its start tag.
-/

namespace BlockMarkup

inductive Anchor where
  | ofId (id : String)
  | ofClass (name : String)
  deriving DecidableEq, Repr

namespace Anchor

def selector : Anchor → String
  | ofId id => "#" ++ id
  | ofClass name => "." ++ name

/-- The class for an element at a place in the source. -/
def classAt (p : Position) : String := "hx-" ++ toString p.line ++ "-" ++ toString p.column

end Anchor

namespace Header

def isStyled (h : Header) : Bool :=
  match h.style with
  | some style => !style.isEmpty
  | none => false

def isAnimated (h : Header) : Bool := h.animation.isSome

def anchor (h : Header) : Option Anchor :=
  if h.isStyled || h.isAnimated then
    match h.id with
    | some id => some (.ofId id)
    | none =>
      if h.isAnimated || !h.classes.isEmpty then some (.ofClass (Anchor.classAt h.position))
      else none
  else none

end Header

end BlockMarkup
