import BlockMarkup.Position
import BlockMarkup.Text.Quoted

/-!
# Tokens

The pieces of a source text, as the tree reader takes them. Line breaks and changes of indentation
are tokens too.
-/

namespace BlockMarkup

inductive TokenKind where
  | identifier
  | dot
  | hash
  | parenOpen
  | parenClose
  | braceOpen
  | braceClose
  | colon
  | comma
  /-- The token's text is the value between the quotes. -/
  | stringLiteral
  | textRun
  | newline
  /-- The line is indented more than the line before; the text is its margin. -/
  | indent
  /-- The line is indented less than the line before; the text is its margin. -/
  | dedent
  | endOfInput
  deriving DecidableEq, Repr

structure Token where
  kind : TokenKind
  text : String
  position : Position
  deriving DecidableEq, Repr

/-- How far a tab indents. -/
def tabWidth : Nat := 4

/-- The width of a margin: a tab counts four, every other character one. -/
def marginWidth : List Char → Nat
  | [] => 0
  | c :: margin => (if c = '\t' then tabWidth else 1) + marginWidth margin

namespace Token

/-- The width of a token's text as a margin. -/
def width (t : Token) : Nat := marginWidth t.text.toList

/-- The name of a token in messages. -/
def describe (t : Token) : String :=
  match t.kind with
  | .identifier => "identifier `" ++ t.text ++ "`"
  | .stringLiteral => "string " ++ Text.quoted t.text
  | .textRun => "text `" ++ t.text ++ "`"
  | .newline => "end of line"
  | .indent | .dedent => "indentation"
  | .endOfInput => "end of input"
  | _ => "`" ++ t.text ++ "`"

end Token

/-- Why a source text cannot be cut into tokens. -/
inductive TokenProblem where
  | unterminatedString
  | unterminatedAttributes
  | illegalCharacter (found : Char)
  deriving DecidableEq, Repr

def TokenProblem.message : TokenProblem → String
  | unterminatedString => "unterminated string literal"
  | unterminatedAttributes => "unterminated attribute list, expected `)`"
  | illegalCharacter found =>
    "unexpected character " ++ Text.quotedChar found ++ " in attribute list"

abbrev TokenError := Located TokenProblem

end BlockMarkup
