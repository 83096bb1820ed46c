import BlockMarkup.Node
import BlockMarkup.Token

/-!
# Reading a tree from tokens

A node is a text run or an element. An element is a tag with any number of classes and at most one
id, then perhaps attributes between parentheses, then perhaps a block of nodes between braces.
Attributes are parted by commas, a comma may stand behind the last one, and no name comes twice.

Line breaks and changes of indentation may stand between nodes. They do not nest anything here; each
node that begins a line only remembers that line's width.
-/

namespace BlockMarkup

/-- How deep blocks may nest. -/
def maxDepth : Nat := 256

/-- What the reader wanted where it found something else. -/
inductive Expected where
  | className
  | idName
  | attributeName
  | attributeColon
  | attributeValue
  | attributeEnd
  | headerBeforeBlock
  | node
  deriving DecidableEq, Repr

def Expected.text : Expected → String
  | className => "a class name after `.`"
  | idName => "an id after `#`"
  | attributeName => "an attribute name"
  | attributeColon => "`:` after the attribute name"
  | attributeValue => "a quoted attribute value"
  | attributeEnd => "`,` or `)`"
  | headerBeforeBlock => "an element header before `\x7b` on the same line"
  | node => "an element or text"

/-- Why tokens do not form a tree. -/
inductive TreeProblem where
  | unexpected (expected : Expected) (found : String)
  | unmatchedBrace
  | unclosedBrace
  | duplicateId (id first : String)
  | duplicateAttribute (name : String)
  | malformedStyle (declaration : String)
  | tooDeep
  deriving DecidableEq, Repr

/-- The text about blocks that nest too deep. -/
def tooDeepMessage : String := "blocks nested deeper than " ++ toString maxDepth ++ " levels"

def TreeProblem.message : TreeProblem → String
  | unexpected expected found => "expected " ++ expected.text ++ ", found " ++ found
  | unmatchedBrace => "unmatched `\x7d`"
  | unclosedBrace => "unclosed `\x7b`, expected `\x7d` before end of input"
  | duplicateId id first =>
    "ambiguous id `#" ++ id ++ "`, element already has id `#" ++ first ++ "`"
  | duplicateAttribute name => "duplicate attribute `" ++ name ++ "`"
  | malformedStyle declaration =>
    "malformed style declaration " ++ Text.quoted declaration ++ ", expected `property: value`"
  | tooDeep => tooDeepMessage

abbrev TreeError := Located TreeProblem

namespace Reader

/-- The complaint about the first of `tokens`. If there is none, `last`, the place of the last token
of all, is blamed. -/
def unexpected (expected : Expected) (last : Position) : List Token → TreeError
  | [] => ⟨.unexpected expected "end of input", last⟩
  | t :: _ => ⟨.unexpected expected t.describe, t.position⟩

/-- Takes one token of the given kind. -/
def expect (kind : TokenKind) (expected : Expected) (last : Position) (tokens : List Token) :
    Except TreeError (Token × List Token) :=
  match tokens with
  | [] => .error (unexpected expected last tokens)
  | t :: rest => if t.kind = kind then .ok (t, rest) else .error (unexpected expected last tokens)

theorem expect_eq_ok_iff {kind : TokenKind} {expected : Expected} {last : Position}
    {tokens rest : List Token} {t : Token} :
    expect kind expected last tokens = .ok (t, rest) ↔ tokens = t :: rest ∧ t.kind = kind := by
  cases tokens with
  | nil => simp [expect]
  | cons u us =>
    by_cases hkind : u.kind = kind
    · simp only [expect, hkind, if_true, Except.ok.injEq, Prod.mk.injEq, List.cons.injEq]
      exact ⟨fun h => ⟨h, h.1 ▸ hkind⟩, fun h => h.1⟩
    · simp only [expect, hkind, if_false, List.cons.injEq]
      constructor
      · intro h; cases h
      · rintro ⟨⟨rfl, _⟩, hk⟩; exact absurd hk hkind

/-- The kind of the first token; after the last token, the input has ended. -/
def kindAhead : List Token → TokenKind
  | [] => .endOfInput
  | t :: _ => t.kind

/-- Reads the classes and ids behind a tag into `header`. -/
def decorations (last : Position) (header : Header) :
    List Token → Except TreeError (Header × List Token)
  | [] => .ok (header, [])
  | [mark] =>
    if mark.kind = .dot then .error (unexpected .className last [])
    else if mark.kind = .hash then .error (unexpected .idName last [])
    else .ok (header, [mark])
  | mark :: name :: rest =>
    if mark.kind = .dot then
      if name.kind = .identifier then
        decorations last { header with classes := header.classes ++ [name.text] } rest
      else .error (unexpected .className last (name :: rest))
    else if mark.kind = .hash then
      if name.kind = .identifier then
        match header.id with
        | some first => .error ⟨.duplicateId name.text first, mark.position⟩
        | none => decorations last { header with id := some name.text } rest
      else .error (unexpected .idName last (name :: rest))
    else .ok (header, mark :: name :: rest)

theorem decorations_length_le {last : Position} {header stop : Header}
    {tokens rest : List Token} (h : decorations last header tokens = .ok (stop, rest)) :
    rest.length ≤ tokens.length := by
  fun_induction decorations last header tokens with
  | case4 | case9 => simp_all
  | case5 | case8 =>
    rename_i ih
    exact Nat.le_succ_of_le (Nat.le_succ_of_le (ih h))
  | _ => simp_all

/-- Reads one attribute. -/
def oneAttribute (last : Position) (seen : Dict Attribute) (tokens : List Token) :
    Except TreeError (Dict Attribute × List Token) := do
  let (name, tokens) ← expect .identifier .attributeName last tokens
  let (_, tokens) ← expect .colon .attributeColon last tokens
  let (value, tokens) ← expect .stringLiteral .attributeValue last tokens
  if seen.contains name.text then .error ⟨.duplicateAttribute name.text, name.position⟩
  else
    match Attribute.derive name.text value.text with
    | .error declaration => .error ⟨.malformedStyle declaration, value.position⟩
    | .ok derived => .ok (seen.insert name.text derived, tokens)

theorem oneAttribute_length_lt {last : Position} {seen stop : Dict Attribute}
    {tokens rest : List Token} (h : oneAttribute last seen tokens = .ok (stop, rest)) :
    rest.length < tokens.length := by
  unfold oneAttribute at h
  cases hname : expect .identifier .attributeName last tokens with
  | error _ => simp [hname, bind, Except.bind] at h
  | ok name =>
    cases hcolon : expect .colon .attributeColon last name.2 with
    | error _ => simp [hname, hcolon, bind, Except.bind] at h
    | ok colon =>
      cases hvalue : expect .stringLiteral .attributeValue last colon.2 with
      | error _ => simp [hname, hcolon, hvalue, bind, Except.bind] at h
      | ok value =>
        have h₁ := (expect_eq_ok_iff.1 hname).1
        have h₂ := (expect_eq_ok_iff.1 hcolon).1
        have h₃ := (expect_eq_ok_iff.1 hvalue).1
        simp only [hname, hcolon, hvalue, bind, Except.bind] at h
        split at h
        · simp at h
        · split at h
          · simp at h
          · simp only [Except.ok.injEq, Prod.mk.injEq] at h
            rw [h₁, h₂, h₃, ← h.2]
            simp only [List.length_cons]
            omega

/-- Reads attributes up to and including the closing parenthesis. A comma may stand behind the last
one. -/
def attributes (last : Position) (seen : Dict Attribute) (tokens : List Token) :
    Except TreeError (Dict Attribute × List Token) :=
  match _hread : oneAttribute last seen tokens with
  | .error e => .error e
  | .ok (seen, rest) =>
    match rest with
    | [] => .error (unexpected .attributeEnd last [])
    | t :: rest =>
      if t.kind = .parenClose then .ok (seen, rest)
      else if t.kind = .comma then
        if kindAhead rest = .parenClose then .ok (seen, rest.tail)
        else attributes last seen rest
      else .error (unexpected .attributeEnd last (t :: rest))
termination_by tokens.length
decreasing_by
  have hlt := oneAttribute_length_lt _hread
  simp only [List.length_cons] at hlt
  omega

theorem attributes_length_le {last : Position} {seen stop : Dict Attribute}
    {tokens rest : List Token} (h : attributes last seen tokens = .ok (stop, rest)) :
    rest.length ≤ tokens.length := by
  fun_induction attributes last seen tokens with
  | case3 =>
    rename_i hread _ _
    have hlt := oneAttribute_length_lt hread
    simp only [Except.ok.injEq, Prod.mk.injEq] at h
    simp only [List.length_cons, h.2] at hlt
    omega
  | case4 =>
    rename_i hread _ _ _ _
    have hlt := oneAttribute_length_lt hread
    simp only [Except.ok.injEq, Prod.mk.injEq] at h
    simp only [List.length_cons] at hlt
    simp only [← h.2, List.length_tail]
    omega
  | case5 =>
    rename_i hread _ _ _ _ ih
    have hlt := oneAttribute_length_lt hread
    have hle := ih h
    simp only [List.length_cons] at hlt
    omega
  | _ => simp at h

/-- Reads what follows the tag of an element up to its block. -/
def header (last : Position) (indent : Option Nat) (tag : Token) (tokens : List Token) :
    Except TreeError (Header × List Token) :=
  match decorations last ⟨tag.text, none, [], Dict.empty, tag.position, indent⟩ tokens with
  | .error e => .error e
  | .ok (header, tokens) =>
    match tokens with
    | [] => .ok (header, [])
    | t :: rest =>
      if t.kind = .parenOpen then
        if kindAhead rest = .parenClose then .ok (header, rest.tail)
        else
          (attributes last Dict.empty rest).map fun (read, rest) =>
            ({ header with attributes := read }, rest)
      else .ok (header, t :: rest)

theorem header_length_le {last : Position} {indent : Option Nat} {tag : Token} {stop : Header}
    {tokens rest : List Token} (h : header last indent tag tokens = .ok (stop, rest)) :
    rest.length ≤ tokens.length := by
  unfold header at h
  split at h
  · simp at h
  · next read tokens' hread =>
    have hle := decorations_length_le hread
    split at h
    · simp only [Except.ok.injEq, Prod.mk.injEq] at h
      simp [← h.2]
    · next t more =>
      simp only [List.length_cons] at hle
      split at h
      · split at h
        · simp only [Except.ok.injEq, Prod.mk.injEq] at h
          simp only [← h.2, List.length_tail]
          omega
        · cases hattr : attributes last Dict.empty more with
          | error _ => simp [hattr, Except.map] at h
          | ok found =>
            have hle' : found.2.length ≤ more.length := attributes_length_le hattr
            simp only [hattr, Except.map, Except.ok.injEq, Prod.mk.injEq] at h
            rw [← h.2]
            omega
      · simp only [Except.ok.injEq, Prod.mk.injEq] at h
        simp only [← h.2, List.length_cons]
        omega

end Reader

/-- An element whose block has been opened: its header, the place of the brace, and the nodes before
it in the block around it, last first. -/
structure OpenBlock where
  header : Header
  brace : Position
  before : List Node

/-- The state of reading: the open blocks, innermost first, the nodes of the innermost block so far,
last first, the width of the current line, and whether no node has begun on it. -/
structure Reader where
  blocks : List OpenBlock
  nodes : List Node
  width : Nat
  fresh : Bool

namespace Reader

def start : Reader := ⟨[], [], 0, true⟩

/-- The line marker of a node that begins here. -/
def marker (r : Reader) : Option Nat := if r.fresh then some r.width else none

/-- Adds a node to the innermost block. -/
def add (r : Reader) (n : Node) : Reader := { r with nodes := n :: r.nodes, fresh := false }

/-- Opens the block of an element. -/
def enter (r : Reader) (header : Header) (brace : Position) : Reader :=
  ⟨⟨header, brace, r.nodes⟩ :: r.blocks, [], r.width, false⟩

/-- The document, if all blocks have been closed. -/
def finish (r : Reader) : Except TreeError Document :=
  match r.blocks with
  | [] => .ok r.nodes.reverse
  | block :: _ => .error ⟨.unclosedBrace, block.brace⟩

/-- Reads nodes until the input ends. -/
def run (last : Position) (r : Reader) (tokens : List Token) : Except TreeError Document :=
  match tokens with
  | [] => r.finish
  | t :: rest =>
    match t.kind with
    | .endOfInput => r.finish
    | .newline => run last { r with fresh := true } rest
    | .indent | .dedent => run last { r with width := t.width, fresh := true } rest
    | .braceClose =>
      match r.blocks with
      | [] => .error ⟨.unmatchedBrace, t.position⟩
      | block :: outer =>
        let element := Node.element block.header r.nodes.reverse
        run last { r with blocks := outer, nodes := element :: block.before } rest
    | .textRun => run last (r.add (.text ⟨t.text, t.position, r.marker⟩)) rest
    | .identifier =>
      match _hread : header last r.marker t rest with
      | .error e => .error e
      | .ok (read, rest) =>
        match rest with
        | [] => run last (r.add (.element read [])) []
        | brace :: inside =>
          if brace.kind = .braceOpen then
            if maxDepth ≤ r.blocks.length then .error ⟨.tooDeep, brace.position⟩
            else run last (r.enter read brace.position) inside
          else run last (r.add (.element read [])) (brace :: inside)
    | .braceOpen => .error (unexpected .headerBeforeBlock last tokens)
    | _ => .error (unexpected .node last tokens)
termination_by tokens.length
decreasing_by
  all_goals simp_wf
  all_goals
    have hle := header_length_le _hread
    simp only [List.length_cons] at hle ⊢
    omega

end Reader

/-- Reads a document from tokens. Tokens behind the end of input are not looked at. -/
def Document.ofTokens (tokens : List Token) : Except TreeError Document :=
  let last := (tokens.getLast?.map (·.position)).getD Position.start
  Reader.start.run last tokens

end BlockMarkup
