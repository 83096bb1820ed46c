import BlockMarkup.Attribute
import BlockMarkup.Name
import BlockMarkup.Position

/-!
# Document trees

A document is a list of nodes. A node is an element, which has a header and child nodes, or a run of
text. A node that begins a line of the source carries the indentation width of that line until the
indentation has been turned into nesting.
-/

namespace BlockMarkup

/-- What is written of an element before its content. -/
structure Header where
  tag : String
  id : Option String
  classes : List String
  attributes : Dict Attribute
  position : Position
  indent : Option Nat
  deriving DecidableEq, Repr

structure TextRun where
  value : String
  position : Position
  indent : Option Nat
  deriving DecidableEq, Repr

inductive Node where
  | element (header : Header) (children : List Node)
  | text (run : TextRun)

abbrev Document := List Node

namespace Header

/-- The declarations under `style`, if that attribute is a style. -/
def style (h : Header) : Option Style :=
  match h.attributes.get? Attribute.styleName with
  | some (.style declarations) => some declarations
  | _ => none

/-- The shorthand under `animate`, if that attribute is a plain text. -/
def animation (h : Header) : Option String :=
  match h.attributes.get? Attribute.animateName with
  | some (.text value) => some value
  | _ => none

/-- The directives in the order of their attributes. -/
def directives (h : Header) : List Directive :=
  h.attributes.entries.filterMap fun
    | (_, .directive d) => some d
    | _ => none

def isVoid (h : Header) : Bool := isVoidElement h.tag

end Header

namespace Node

mutual

def decEq : (a b : Node) → Decidable (a = b)
  | .element h cs, .element h' cs' =>
    match (inferInstance : Decidable (h = h')), decEqList cs cs' with
    | isTrue hh, isTrue hc => isTrue (by rw [hh, hc])
    | isFalse hh, _ => isFalse fun e => hh (by cases e; rfl)
    | _, isFalse hc => isFalse fun e => hc (by cases e; rfl)
  | .text t, .text t' =>
    match (inferInstance : Decidable (t = t')) with
    | isTrue ht => isTrue (by rw [ht])
    | isFalse ht => isFalse fun e => ht (by cases e; rfl)
  | .element _ _, .text _ => isFalse nofun
  | .text _, .element _ _ => isFalse nofun

def decEqList : (as bs : List Node) → Decidable (as = bs)
  | [], [] => isTrue rfl
  | [], _ :: _ => isFalse nofun
  | _ :: _, [] => isFalse nofun
  | a :: as, b :: bs =>
    match decEq a b, decEqList as bs with
    | isTrue ha, isTrue has => isTrue (by rw [ha, has])
    | isFalse ha, _ => isFalse fun e => ha (by cases e; rfl)
    | _, isFalse has => isFalse fun e => has (by cases e; rfl)

end

instance : DecidableEq Node := decEq

def position : Node → Position
  | element h _ => h.position
  | text t => t.position

/-- The indentation width of the line that the node begins, if it begins one. -/
def indent : Node → Option Nat
  | element h _ => h.indent
  | text t => t.indent

mutual

/-- The number of nodes in a tree. -/
def size : Node → Nat
  | .element _ children => sizeList children + 1
  | .text _ => 1

def sizeList : List Node → Nat
  | [] => 0
  | n :: ns => size n + sizeList ns

end

@[simp] theorem sizeList_append (ns ms : List Node) :
    sizeList (ns ++ ms) = sizeList ns + sizeList ms := by
  induction ns with
  | nil => simp [sizeList]
  | cons n ns ih => simp [sizeList, ih, Nat.add_assoc]

end Node

/-- An element of a document: its header and its children. -/
structure Element where
  header : Header
  children : List Node

/-- The elements below a list of nodes, each before the elements inside it. The nodes still to be
visited are kept in one list, so that nesting costs no recursion. -/
def Document.elements (pending : Document) : List Element :=
  match pending with
  | [] => []
  | .text _ :: rest => elements rest
  | .element header children :: rest => ⟨header, children⟩ :: elements (children ++ rest)
termination_by Node.sizeList pending
decreasing_by
  · simp [Node.sizeList, Node.size]
  · simp [Node.sizeList, Node.size]

end BlockMarkup
