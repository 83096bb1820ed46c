import BlockMarkup.Node.Reader

/-!
# From indentation to nesting

A line that is indented more than the line before belongs to the last node of that line, which must
be an element; a line that is indented less returns to the block whose lines have its width. Blocks
in braces and blocks by indentation may be mixed. Afterwards no node carries a line marker.

The siblings of one list are placed one after another into an `Outline`, which keeps the blocks that
indentation has opened.
-/

namespace BlockMarkup

/-- Why indentation has no meaning as nesting. -/
inductive IndentationProblem where
  | inconsistentDedent (width : Nat)
  | nestedUnderText
  | tooDeep
  deriving DecidableEq, Repr

def IndentationProblem.message : IndentationProblem → String
  | inconsistentDedent width =>
    "inconsistent dedent to width " ++ toString width ++
      ", no enclosing block is indented that way"
  | nestedUnderText => "cannot nest under a text line"
  | tooDeep => tooDeepMessage

abbrev IndentationError := Located IndentationProblem

/-- A block opened by indentation: the width of its lines, the element it belongs to, and that
element's children so far, last first. -/
structure Frame where
  width : Nat
  header : Header
  children : List Node

/-- The siblings placed so far: the width of the first line, if there was one, the finished
siblings, last first, and the open blocks, innermost first. -/
structure Outline where
  baseWidth : Option Nat
  base : List Node
  frames : List Frame

namespace Outline

def empty : Outline := ⟨none, [], []⟩

/-- Adds a node to the innermost block. -/
def add (o : Outline) (n : Node) : Outline :=
  match o.frames with
  | [] => { o with base := n :: o.base }
  | frame :: outer => { o with frames := { frame with children := n :: frame.children } :: outer }

/-- The nodes of the innermost block so far, last first. -/
def innermost (o : Outline) : List Node :=
  match o.frames with
  | [] => o.base
  | frame :: _ => frame.children

/-- Takes the last node of the innermost block away. -/
def dropLast (o : Outline) : Outline :=
  match o.frames with
  | [] => { o with base := o.base.tail }
  | frame :: outer => { o with frames := { frame with children := frame.children.tail } :: outer }

/-- Closes the innermost block: it becomes an element of the block around it. -/
def close (o : Outline) : Outline :=
  match o.frames with
  | [] => o
  | frame :: outer =>
    { o with frames := outer }.add (.element frame.header frame.children.reverse)

@[simp] theorem length_frames_add (o : Outline) (n : Node) :
    (o.add n).frames.length = o.frames.length := by
  unfold add
  split <;> simp_all

theorem length_frames_close {o : Outline} {frame : Frame} {outer : List Frame}
    (h : o.frames = frame :: outer) : o.close.frames.length = outer.length := by
  unfold close
  simp [h]

/-- Closes the blocks whose lines are wider than `width`. -/
def closeWider (width : Nat) (o : Outline) : Outline :=
  match _hframes : o.frames with
  | [] => o
  | frame :: _ => if width < frame.width then closeWider width o.close else o
termination_by o.frames.length
decreasing_by
  rw [length_frames_close _hframes, _hframes]
  simp

/-- Closes every block and gives the finished siblings. -/
def finish (o : Outline) : List Node :=
  match _hframes : o.frames with
  | [] => o.base.reverse
  | _ :: _ => finish o.close
termination_by o.frames.length
decreasing_by
  rw [length_frames_close _hframes, _hframes]
  simp

/-- Prepares for a node that begins a line of the given width at `position`: afterwards the node
belongs to the innermost block. -/
def beginLine (o : Outline) (width : Nat) (position : Position) :
    Except IndentationError Outline :=
  let baseWidth := o.baseWidth.getD width
  if width < baseWidth then .error ⟨.inconsistentDedent width, position⟩
  else
    let closed := closeWider width { o with baseWidth := some baseWidth }
    let innermostWidth := (closed.frames.head?.map (·.width)).getD baseWidth
    if innermostWidth = width then .ok closed
    else if closed.frames.length < o.frames.length then
      .error ⟨.inconsistentDedent width, position⟩
    else
      match closed.innermost with
      | .element header children :: _ =>
        let outer := closed.dropLast
        .ok { outer with frames := ⟨width, header, children.reverse⟩ :: outer.frames }
      | .text _ :: _ => .error ⟨.nestedUnderText, position⟩
      | [] => .error ⟨.inconsistentDedent width, position⟩

/-- Prepares for a node, which begins a line if it carries a marker. -/
def prepare (o : Outline) (n : Node) : Except IndentationError Outline :=
  match n.indent with
  | none => .ok o
  | some width => o.beginLine width n.position

end Outline

mutual

/-- Nests the lines inside a node that lies at `depth`. -/
def Node.nest (depth : Nat) : Node → Except IndentationError Node
  | .text run =>
    if maxDepth < depth then .error ⟨.tooDeep, run.position⟩
    else .ok (.text { run with indent := none })
  | .element header children =>
    if maxDepth < depth then .error ⟨.tooDeep, header.position⟩
    else
      match Node.nestSiblings (depth + 1) .empty children with
      | .error e => .error e
      | .ok children => .ok (.element { header with indent := none } children)

/-- Places siblings whose list lies at `depth`. -/
def Node.nestSiblings (depth : Nat) (o : Outline) : List Node → Except IndentationError (List Node)
  | [] => .ok o.finish
  | n :: rest =>
    match o.prepare n with
    | .error e => .error e
    | .ok o =>
      match Node.nest (depth + o.frames.length) n with
      | .error e => .error e
      | .ok n => Node.nestSiblings depth (o.add n) rest

end

/-- Turns the indentation of a document into nesting. -/
def Document.nest (document : Document) : Except IndentationError Document :=
  Node.nestSiblings 0 .empty document

end BlockMarkup
