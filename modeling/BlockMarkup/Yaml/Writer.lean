import BlockMarkup.Yaml.Cursor
import BlockMarkup.Yaml.Scalar
import BlockMarkup.Text.Blank

/-!
# Writing texts as scalars

A text is written plainly if it reads back as the same text. Otherwise it stands in single quotes,
or in double quotes if it has characters that are written as escapes. A text of several lines is
written as a literal one.
-/

namespace BlockMarkup.Yaml

/-- Whether a word stands for nothing or for a truth value. -/
def isReservedWord (word : String) : Bool :=
  ["", "~", "null", "Null", "NULL", "true", "True", "TRUE", "false", "False", "FALSE"].contains word

/-- Whether digits stand for an integer behind a mark for their radix. -/
def isMarkedInteger (cs : List Char) : Bool :=
  let isBelow (radix : Nat) (digits : List Char) : Bool :=
    (Number.natural? radix digits).any (· < Nat.pow 2 128)
  match cs with
  | '0' :: 'x' :: digits => isBelow 16 digits
  | '0' :: 'o' :: digits => isBelow 8 digits
  | '0' :: 'b' :: digits => isBelow 2 digits
  | _ => false

/-- Whether a text has the digits of a number with a zero in front. -/
def hasLeadingZero (cs : List Char) : Bool :=
  match cs with
  | '0' :: c :: cs => (c :: cs).all Number.isDecimalDigit
  | _ => false

def isFinite (x : Float) : Bool := !x.isNaN && !x.isInf

/-- Whether a text without a sign in front stands for a number, or could be taken for one. -/
def isNumeric (cs : List Char) : Bool :=
  isMarkedInteger cs || hasLeadingZero cs || [".inf", ".Inf", ".INF"].contains (String.ofList cs) ||
    ((Decimal.unsigned? false cs).any fun d => isFinite d.toFloat)

/-- Whether a plain text would be read as something else than a text. -/
def isAmbiguous (word : String) : Bool :=
  isReservedWord word || [".nan", ".NaN", ".NAN"].contains word ||
    match word.toList with
    | '+' :: cs => isNumeric cs
    | '-' :: cs => isNumeric cs
    | cs => isNumeric cs

/-- Characters that a plain text cannot start with. -/
def indicators : List Char :=
  ['#', ',', '[', ']', '{', '}', '&', '*', '!', '|', '>', '\'', '"', '%', '@', '\x60']

/-- Whether a text goes on with a blank or ends. -/
def atBlank (cs : List Char) : Bool :=
  match cs with
  | [] => true
  | c :: _ => isGap c

/-- Whether a text starts like a plain one. -/
def startsLikePlain (cs : List Char) : Bool :=
  match cs with
  | [] => false
  | c :: rest =>
    !indicators.contains c && c != ' ' &&
      !((c = '-' || c = '?' || c = ':') && atBlank rest) &&
      !"---".toList.isPrefixOf cs && !"...".toList.isPrefixOf cs

/-- Whether a text has a colon before a blank or a `#` behind one. -/
def hasBreakInside (afterGap : Bool) : List Char → Bool
  | [] => false
  | c :: cs =>
    (c = ':' && atBlank cs) || (c = '#' && afterGap) || hasBreakInside (isGap c) cs

/-- The ends of lines. -/
def isLineBreak (c : Char) : Bool := c = '\n' || c = '\u2028' || c = '\u2029'

def isPlain (cs : List Char) : Bool :=
  startsLikePlain cs && cs.getLast? != some ' ' && !hasBreakInside false cs && !cs.any isLineBreak

/-- Characters that are written as they are. -/
def isPrintable (c : Char) : Bool :=
  let n := c.toNat
  (0x20 ≤ n && n ≤ 0x7E) || (0xA0 ≤ n && n != 0xFEFF && n != 0xFFFE && n != 0xFFFF)

def hexDigit (n : Nat) : Char :=
  if n < 10 then Char.ofNat ('0'.toNat + n) else Char.ofNat ('A'.toNat + (n - 10))

/-- The last `width` hexadecimal digits of a number. -/
def hexDigits (n : Nat) : (width : Nat) → List Char
  | 0 => []
  | width + 1 => hexDigits (n / 16) width ++ [hexDigit (n % 16)]

/-- Characters with an escape of their own. -/
def namedEscapes : List (Char × Char) :=
  [('\x00', '0'), ('\x07', 'a'), ('\x08', 'b'), ('\t', 't'), ('\n', 'n'), ('\x0b', 'v'),
    ('\x0c', 'f'), ('\r', 'r'), ('\x1b', 'e'), ('"', '"'), ('\\', '\\'), ('\u0085', 'N'),
    ('\u2028', 'L'), ('\u2029', 'P')]

/-- A character between double quotes. -/
def doubleQuotedChar (c : Char) : List Char :=
  match namedEscapes.lookup c with
  | some letter => ['\\', letter]
  | none =>
    let n := c.toNat
    if isPrintable c then [c]
    else if n ≤ 0xFF then '\\' :: 'x' :: hexDigits n 2
    else if n ≤ 0xFFFF then '\\' :: 'u' :: hexDigits n 4
    else '\\' :: 'U' :: hexDigits n 8

def doubleQuoted (cs : List Char) : String :=
  "\"" ++ String.ofList (cs.flatMap doubleQuotedChar) ++ "\""

/-- What stands in front of the further lines of a scalar. -/
def margin : List Char := [' ', ' ', ' ', ' ']

/-- A text with a margin in front of its lines, as far as they are not empty. The first line has one
if `isFresh` holds. -/
def withMargin (isFresh : Bool) : List Char → List Char
  | [] => []
  | c :: cs =>
    if isLineBreak c then c :: withMargin true cs
    else (if isFresh then margin else []) ++ c :: withMargin false cs

def singleQuotedChar (c : Char) : List Char := if c = '\'' then ['\'', '\''] else [c]

def singleQuoted (cs : List Char) : String :=
  let last := if cs.getLast?.any isLineBreak then margin else []
  "'" ++ String.ofList (withMargin false (cs.flatMap singleQuotedChar) ++ last) ++ "'"

/-- How far a literal text is indented, which is told if it starts with a blank or a line end. -/
def indentSign (cs : List Char) : String :=
  if cs.head?.any fun c => c = ' ' || isLineBreak c then "2" else ""

/-- Which line ends stay at the end of a literal text: none, one, or all of them. -/
def endingSign (cs : List Char) : String :=
  match cs.reverse with
  | [] => "-"
  | [c] => if isLineBreak c then "+" else "-"
  | c :: d :: _ => if !isLineBreak c then "-" else if isLineBreak d then "+" else ""

def literal (cs : List Char) : String :=
  "|" ++ indentSign cs ++ endingSign cs ++ "\n" ++ String.ofList (withMargin true cs)

/-- Whether a character that satisfies `p` stands directly before one that satisfies `q`. -/
def hasNeighbours (p q : Char → Bool) : List Char → Bool
  | c :: d :: cs => (p c && q d) || hasNeighbours p q (d :: cs)
  | _ => false

/-- How a text is written as a scalar, with the end of its last line. -/
def written (text : String) : String :=
  let cs := text.toList
  if cs.any (fun c => !isPrintable c && c != '\n') || hasNeighbours (· = ' ') isLineBreak cs then
    doubleQuoted cs ++ "\n"
  else if cs.contains '\n' then
    if cs.getLast? = some ' ' then doubleQuoted cs ++ "\n"
    else if cs.getLast?.any isLineBreak then literal cs
    else literal cs ++ "\n"
  else if !isAmbiguous text && isPlain cs then text ++ "\n"
  else if hasNeighbours isLineBreak (· = ' ') cs then doubleQuoted cs ++ "\n"
  else singleQuoted cs ++ "\n"

end BlockMarkup.Yaml
