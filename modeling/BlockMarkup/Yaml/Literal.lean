import BlockMarkup.Number.Integer
import BlockMarkup.Yaml.Cursor

/-!
# Literal texts

A literal text is made of the lines below its sign, as far as they are indented. Behind `|` line
ends stay, and behind `>` lines are joined unless they start with a blank.
-/

namespace BlockMarkup.Yaml

/-- Which line ends stay at the end of a literal text: one, none or all. -/
inductive Ending where
  | one
  | none
  | all
  deriving DecidableEq, Repr

def Ending.ofSign? (c : Char) : Option Ending :=
  if c = '+' then some .all else if c = '-' then some .none else Option.none

/-- What stands behind the sign of a literal text: which line ends stay, and how far the text is
indented, in either order. -/
structure LiteralHeader where
  ending : Ending
  indent : Option Nat

/-- Reads the depth of an indentation, which is not zero. -/
def depth? (c : Cursor) : Option (Option Nat × Cursor) :=
  match c.rest with
  | d :: _ =>
    if d = '0' then none
    else if Number.isDecimalDigit d then some (Number.digit? d, c.next)
    else some (none, c)
  | [] => some (none, c)

/-- Reads which line ends stay. -/
def ending? (c : Cursor) : Option Ending := c.rest.head?.bind Ending.ofSign?

def literalHeader? (c : Cursor) : Option (LiteralHeader × Cursor) :=
  match ending? c with
  | some ending => (depth? c.next).map fun (indent, c) => (⟨ending, indent⟩, c)
  | none =>
    match depth? c with
    | none => none
    | some (none, c) => some (⟨.one, none⟩, c)
    | some (some indent, c) =>
      match ending? c with
      | some ending => some (⟨ending, some indent⟩, c.next)
      | none => some (⟨.one, some indent⟩, c)

/-- Moves past the indentation of the next line that is not empty, and counts the empty ones. -/
def skipIndent (indent : Nat) : Nat → Nat → Cursor → Nat × Cursor
  | 0, emptyLines, c => (emptyLines, c)
  | fuel + 1, emptyLines, c =>
    let spaces := (c.rest.takeWhile (· = ' ')).length
    let c := c.advance (min (indent - c.column) spaces)
    if c.isAt '\n' then skipIndent indent fuel (emptyLines + 1) c.next else (emptyLines, c)

/-- Moves to the first line that is not empty, counts the empty ones, and finds the widest
indentation. -/
def findIndent : Nat → Nat → Nat → Cursor → Nat × Nat × Cursor
  | 0, widest, emptyLines, c => (widest, emptyLines, c)
  | fuel + 1, widest, emptyLines, c =>
    let c := c.skip (· = ' ')
    let widest := max widest c.column
    if c.isAt '\n' then findIndent fuel widest (emptyLines + 1) c.next
    else (widest, emptyLines, c)

/-- A literal text on its way: what was read, last first, the line ends behind it, and whether the
last line starts with a blank. -/
structure Literal where
  text : List Char
  hasBreak : Bool
  emptyLines : Nat
  isIndented : Bool

namespace Literal

/-- What the line ends behind the text are written as, in front of a line that starts with `c`. -/
def joint (isFolded : Bool) (l : Literal) (c : Option Char) : List Char :=
  let lineEnds := List.replicate l.emptyLines '\n'
  if isFolded && l.hasBreak && !l.isIndented && !c.any isGap then
    if l.emptyLines = 0 then [' '] else lineEnds
  else if l.hasBreak then '\n' :: lineEnds
  else lineEnds

/-- Reads the lines that start at `indent`. -/
def lines (isFolded : Bool) (indent : Nat) : Nat → Literal → Cursor → Literal × Cursor
  | 0, l, c => (l, c)
  | fuel + 1, l, c =>
    if c.rest.isEmpty || c.column ≠ indent || (indent = 0 && atEndMark c.rest) then (l, c)
    else
      let first := c.rest.head?
      let line := c.rest.takeWhile (· ≠ '\n')
      let text := line.reverse ++ l.joint isFolded first ++ l.text
      let isIndented := first.any isGap
      let c := c.advance line.length
      if c.rest.isEmpty then (⟨text, false, 0, isIndented⟩, c)
      else
        let (emptyLines, c) := skipIndent indent (c.rest.length + 1) 0 c.next
        lines isFolded indent fuel ⟨text, true, emptyLines, isIndented⟩ c

/-- The text with the line ends that stay at its end. -/
def ended (ending : Ending) (indent : Nat) (l : Literal) (c : Cursor) : String :=
  let last := if l.hasBreak then ['\n'] else []
  let missing := if c.rest.isEmpty && max indent 1 ≤ c.column then ['\n'] else []
  let text :=
    match ending with
    | .none => l.text
    | .one => missing ++ last ++ l.text
    | .all => List.replicate l.emptyLines '\n' ++ missing ++ last ++ l.text
  String.ofList text.reverse

end Literal

/-- What stays of a literal text without lines, behind which `emptyLines` line ends stand. -/
def emptyLiteral (ending : Ending) (isSameLine : Bool) (emptyLines : Nat) : String :=
  if isSameLine then ""
  else
    match ending with
    | .none => ""
    | .one => "\n"
    | .all => String.ofList (List.replicate (max 1 emptyLines) '\n')

/-- Reads a literal text from its sign on, inside of a block at `blockIndent`. -/
def literal? (isFolded : Bool) (blockIndent : Int) (c : Cursor) : Option (String × Cursor) := do
  let (header, behind) ← literalHeader? c.next
  let (behind, _) ← behind.skipGap? true
  if !atLineEnd behind.rest then none
  else
    let first := behind.next
    if first.isAt '\t' then none
    else
      let fuel := first.rest.length + 1
      let (indent, emptyLines, first) :=
        match header.indent with
        | some depth =>
          let indent := (max blockIndent 0).toNat + depth
          (indent, skipIndent indent fuel 0 first)
        | none =>
          let (widest, emptyLines, first) := findIndent fuel 0 0 first
          let least := (blockIndent + 1).toNat
          (max (max widest least) (if 0 < blockIndent then 1 else 0), emptyLines, first)
      if first.rest.isEmpty then
        some (emptyLiteral header.ending (first.line = c.line) emptyLines, first)
      else if first.column < indent && blockIndent < first.column then none
      else
        let (l, behind) := Literal.lines isFolded indent fuel ⟨[], false, emptyLines, false⟩ first
        some (l.ended header.ending indent behind, behind)

end BlockMarkup.Yaml
