import BlockMarkup.Name

/-!
# Places in a text

A cursor stands before the characters that are still to be read. It knows its line and its column,
both counted from zero, and it moves past blanks, comments and line ends.
-/

namespace BlockMarkup.Yaml

/-- Blanks inside a line. -/
def isGap (c : Char) : Bool := c = ' ' || c = '\t'

/-- The signs of lists in brackets and of maps in braces. -/
def isFlowSign (c : Char) : Bool := c = ',' || c = '[' || c = ']' || c = '{' || c = '}'

/-- The characters of names and numbers. -/
def isWordChar (c : Char) : Bool := isAsciiAlphanumeric c || c = '_' || c = '-'

/-- Whether a line or the text ends here. -/
def atLineEnd (cs : List Char) : Bool := cs.head?.all (· = '\n')

/-- Whether a blank follows, or a line or the text ends here. -/
def atGap (cs : List Char) : Bool := cs.head?.all fun c => isGap c || c = '\n'

/-- Whether three dashes stand here by themselves. -/
def atStartMark (cs : List Char) : Bool := "---".toList.isPrefixOf cs && atGap (cs.drop 3)

/-- Whether three dots stand here by themselves. -/
def atEndMark (cs : List Char) : Bool := "...".toList.isPrefixOf cs && atGap (cs.drop 3)

/-- A text with one kind of line ends, up to the character with code zero, which ends it. -/
def normalized : List Char → List Char
  | [] => []
  | '\r' :: '\n' :: cs => '\n' :: normalized cs
  | c :: cs =>
    if c = '\x00' then [] else if c = '\r' then '\n' :: normalized cs else c :: normalized cs

structure Cursor where
  rest : List Char
  /-- How many characters stand before it. -/
  index : Nat
  line : Nat
  column : Nat
  /-- Whether only blanks stand before it on its line. -/
  isFresh : Bool

/-- What surrounds a token: the indentation, whether a block is open, and whether brackets are. -/
structure Context where
  indent : Int
  inBlock : Bool
  inFlow : Bool

namespace Cursor

def start (cs : List Char) : Cursor := ⟨cs, 0, 0, 0, true⟩

/-- Moves past one character. -/
def next (c : Cursor) : Cursor :=
  match c.rest with
  | [] => c
  | d :: rest =>
    if d = '\n' then ⟨rest, c.index + 1, c.line + 1, 0, true⟩
    else ⟨rest, c.index + 1, c.line, c.column + 1, c.isFresh && isGap d⟩

def advance : Nat → Cursor → Cursor
  | 0, c => c
  | n + 1, c => advance n c.next

/-- Moves past the characters that satisfy `p`. -/
def skip (p : Char → Bool) (c : Cursor) : Cursor := c.advance (c.rest.takeWhile p).length

/-- Whether it stands in front of the character `d`. -/
def isAt (d : Char) (c : Cursor) : Bool := c.rest.head? = some d

/-- Whether it stands at the beginning of a line with a mark between documents. -/
def isAtMark (c : Cursor) : Bool := c.column = 0 && (atStartMark c.rest || atEndMark c.rest)

/-- Whether it stands to the left of a column. -/
def isLeftOf (column : Int) (c : Cursor) : Bool := (c.column : Int) < column

/-- Moves past a comment, up to the end of the line. -/
def skipComment (c : Cursor) : Cursor := c.skip (· ≠ '\n')

/-- Moves past blanks, with tabs among them if `tabs` holds, and past a comment behind them. A
comment stands behind a blank. Gives the blanks as well. -/
def skipGap? (tabs : Bool) (c : Cursor) : Option (Cursor × List Char) :=
  let blanks := c.rest.takeWhile fun d => d = ' ' || (tabs && d = '\t')
  let c := c.advance blanks.length
  if c.isAt '#' then if blanks.isEmpty then none else some (c.skipComment, blanks)
  else some (c, blanks)

/-- Moves past a line that holds nothing but blanks and a comment. -/
def skipEmptyLine? (c : Cursor) : Option Cursor :=
  match c.skipGap? true with
  | some (c, _) => if atLineEnd c.rest then some c else none
  | none => none

/-- Moves to the next token. Tabs do not indent: to the left of the indentation, they may only stand
on empty lines. Also tells whether a key may start there, which the end of a line allows outside of
brackets. -/
def toTokenFrom? (context : Context) : Nat → Bool → Cursor → Option (Cursor × Bool)
  | 0, keyAllowed, c => some (c, keyAllowed)
  | fuel + 1, keyAllowed, c =>
    match c.rest with
    | [] => some (c, keyAllowed)
    | d :: _ =>
      if d = '\t' && context.inBlock && c.isFresh && c.isLeftOf context.indent then
        match c.skipEmptyLine? with
        | some c => toTokenFrom? context fuel keyAllowed c
        | none => none
      else if isGap d then toTokenFrom? context fuel keyAllowed c.next
      else if d = '\n' then toTokenFrom? context fuel (keyAllowed || !context.inFlow) c.next
      else if d = '#' then toTokenFrom? context fuel keyAllowed c.skipComment
      else some (c, keyAllowed)

def toToken? (context : Context) (keyAllowed : Bool) (c : Cursor) : Option (Cursor × Bool) :=
  c.toTokenFrom? context (c.rest.length + 1) keyAllowed

end Cursor

/-- What stands between two pieces of a text that goes on over several lines. -/
structure Fold where
  /-- The blanks on the line of the first piece, last first. -/
  blanks : List Char
  /-- Whether the second piece stands on another line. -/
  isBroken : Bool
  /-- Whether the line end counts. -/
  isCounted : Bool
  /-- How many empty lines stand between the pieces. -/
  emptyLines : Nat

namespace Fold

def nothing : Fold := ⟨[], false, false, 0⟩

/-- What a line end without a meaning of its own leaves. -/
def escaped : Fold := ⟨[], true, false, 0⟩

/-- Adds a line end. -/
def addBreak (f : Fold) : Fold :=
  if f.isBroken then { f with emptyLines := f.emptyLines + 1 } else ⟨[], true, true, 0⟩

/-- What the second piece is joined with: blanks as they are, a blank for a line end, and line ends
for empty lines. Last first. -/
def joint (f : Fold) : List Char :=
  if !f.isBroken then f.blanks
  else if f.isCounted && f.emptyLines = 0 then [' ']
  else List.replicate f.emptyLines '\n'

end Fold

end BlockMarkup.Yaml
