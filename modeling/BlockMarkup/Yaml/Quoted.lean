import BlockMarkup.Number.Integer
import BlockMarkup.Yaml.Cursor

/-!
# Quoted texts

Between single quotes a quote is written twice. Between double quotes a backslash starts an escape.
Both may go on over several lines.
-/

namespace BlockMarkup.Yaml

/-- What stands behind a backslash for a single character. -/
def escapes : List (Char × Char) :=
  [('0', '\x00'), ('a', '\x07'), ('b', '\x08'), ('t', '\t'), ('\t', '\t'), ('n', '\n'),
    ('v', '\x0b'), ('f', '\x0c'), ('r', '\r'), ('e', '\x1b'), (' ', ' '), ('"', '"'), ('/', '/'),
    ('\\', '\\'), ('N', '\u0085'), ('_', '\u00a0'), ('L', '\u2028'), ('P', '\u2029')]

/-- How many hexadecimal digits stand behind a letter. -/
def escapeWidth? (c : Char) : Option Nat :=
  if c = 'x' then some 2 else if c = 'u' then some 4 else if c = 'U' then some 8 else none

/-- The character with the code that hexadecimal digits give. -/
def coded? (width : Nat) (digits : List Char) : Option Char :=
  if digits.length = width then
    match Number.natural? 16 digits with
    | some n => if n.isValidChar then some (Char.ofNat n) else none
    | none => none
  else none

/-- Reads what stands behind a backslash: the character, and how many characters stand for it. -/
def escaped? : List Char → Option (Char × Nat)
  | [] => none
  | c :: cs =>
    match escapes.lookup c with
    | some d => some (d, 1)
    | none =>
      match escapeWidth? c with
      | some width => (coded? width (cs.take width)).map fun d => (d, width + 1)
      | none => none

/-- Reads a piece of a quoted text, up to a blank, the end of a line or the closing quote. Gives
what was read, last first, and what a line end that stands behind a backslash leaves. -/
def quotedPiece? (quote : Char) : Nat → List Char → Cursor → Option (List Char × Fold × Cursor)
  | 0, _, _ => none
  | fuel + 1, text, c =>
    match c.rest with
    | [] => some (text, .nothing, c)
    | d :: rest =>
      if isGap d || d = '\n' then some (text, .nothing, c)
      else if d = quote then
        if quote = '\'' && rest.head? = some '\'' then
          quotedPiece? quote fuel ('\'' :: text) (c.advance 2)
        else some (text, .nothing, c)
      else if quote = '"' && d = '\\' then
        if rest.head? = some '\n' then some (text, .escaped, c.advance 2)
        else
          match escaped? rest with
          | some (e, width) => quotedPiece? quote fuel (e :: text) (c.advance (width + 1))
          | none => none
      else quotedPiece? quote fuel (d :: text) c.next

/-- Reads what stands between two pieces. Tabs do not indent. -/
def quotedFold? (indent : Int) : Nat → Fold → Cursor → Option (Fold × Cursor)
  | 0, f, c => some (f, c)
  | fuel + 1, f, c =>
    match c.rest with
    | [] => some (f, c)
    | d :: _ =>
      if isGap d then
        if !f.isBroken then quotedFold? indent fuel { f with blanks := d :: f.blanks } c.next
        else if d = '\t' && c.isLeftOf indent then none
        else quotedFold? indent fuel f c.next
      else if d = '\n' then quotedFold? indent fuel f.addBreak c.next
      else some (f, c)

/-- Reads a quoted text from behind its opening quote to its closing quote. Gives it last character
first. The lines of the text are indented like their block. -/
def quotedText? (indent : Int) (quote : Char) :
    Nat → List Char → Cursor → Option (List Char × Cursor)
  | 0, _, _ => none
  | fuel + 1, text, c =>
    if c.rest.isEmpty || c.isAtMark || c.isLeftOf indent then none
    else
      match quotedPiece? quote (c.rest.length + 1) text c with
      | none => none
      | some (text, f, c) =>
        if c.isAt quote then some (text, c.next)
        else
          match quotedFold? indent (c.rest.length + 1) f c with
          | none => none
          | some (f, c) => quotedText? indent quote fuel (f.joint ++ text) c

/-- Whether a quoted text that began on `line` may end here: before the end of a line, before a
colon, and inside of brackets before their signs. -/
def mayEndQuoted (inFlow : Bool) (line : Nat) (c : Cursor) : Bool :=
  match c.rest.head? with
  | none => true
  | some d =>
    d = '\n' || (inFlow && (d = ',' || d = '}' || d = ']')) ||
      (d = ':' && (inFlow || c.line = line))

/-- Reads a quoted text from its opening quote on, with the blanks and the comment behind it. -/
def quoted? (context : Context) (quote : Char) (c : Cursor) : Option (String × Cursor) :=
  match quotedText? context.indent quote (c.rest.length + 1) [] c.next with
  | none => none
  | some (text, behind) =>
    match behind.skipGap? true with
    | none => none
    | some (behind, _) =>
      if mayEndQuoted context.inFlow c.line behind then
        some (String.ofList text.reverse, behind)
      else none

end BlockMarkup.Yaml
