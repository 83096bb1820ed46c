import BlockMarkup.Yaml.Cursor

/-!
# Plain texts

A plain text goes up to a comment or to what ends it: a colon before a blank, and inside of brackets
their signs as well. It may go on over several lines, as far as they are indented.
-/

namespace BlockMarkup.Yaml

/-- Whether the sign here ends a plain text. -/
def endsPlain (inFlow : Bool) : List Char → Bool
  | [] => true
  | c :: cs =>
    (c = ':' && (atGap cs || (inFlow && cs.head?.any isFlowSign))) || (inFlow && isFlowSign c)

/-- How many characters stand here that belong to a piece of a plain text. -/
def plainLength (inFlow : Bool) : List Char → Nat
  | [] => 0
  | c :: cs =>
    if isGap c || c = '\n' || endsPlain inFlow (c :: cs) then 0 else plainLength inFlow cs + 1

/-- Whether a dash stands here in front of a sign of brackets. -/
def atDashBeforeSign : List Char → Bool
  | '-' :: cs => cs.head?.any isFlowSign
  | _ => false

/-- Reads what stands between two pieces. To the left of `column`, tabs may only stand on empty
lines. -/
def plainFold? (column : Int) : Nat → Fold → Cursor → Option (Fold × Cursor)
  | 0, f, c => some (f, c)
  | fuel + 1, f, c =>
    match c.rest with
    | [] => some (f, c)
    | d :: _ =>
      if isGap d then
        if !c.isFresh then plainFold? column fuel { f with blanks := d :: f.blanks } c.next
        else if d = '\t' && c.isLeftOf column then
          match c.skipEmptyLine? with
          | some c => plainFold? column fuel f c
          | none => none
        else plainFold? column fuel f c.next
      else if d = '\n' then plainFold? column fuel f.addBreak c.next
      else some (f, c)

/-- Reads a plain text whose lines start at `column` or to the right of it. Gives it last character
first. -/
def plainText? (inFlow : Bool) (column : Int) :
    Nat → List Char → Fold → Cursor → Option (List Char × Cursor)
  | 0, text, _, c => some (text, c)
  | fuel + 1, text, f, c =>
    if c.isAtMark || c.isAt '#' then some (text, c)
    else if inFlow && atDashBeforeSign c.rest then none
    else
      let length := plainLength inFlow c.rest
      let joined :=
        if length = 0 then text else (c.rest.take length).reverse ++ f.joint ++ text
      let behind := c.advance length
      if behind.rest.isEmpty || !atGap behind.rest then some (joined, behind)
      else
        match plainFold? column (behind.rest.length + 1) .nothing behind with
        | none => none
        | some (f, c) =>
          if !inFlow && c.isLeftOf column then some (joined, c)
          else plainText? inFlow column fuel joined f c

/-- Reads a plain text, with the blanks and line ends behind it. Something stands there. -/
def plain? (inFlow : Bool) (column : Int) (c : Cursor) : Option (String × Cursor) :=
  match plainText? inFlow column (c.rest.length + 1) [] .nothing c with
  | some (text, behind) =>
    if text.isEmpty then none else some (String.ofList text.reverse, behind)
  | none => none

end BlockMarkup.Yaml
