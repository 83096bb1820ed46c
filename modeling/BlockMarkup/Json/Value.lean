import BlockMarkup.Text.Blank

/-!
# JSON values

The values that a JSON text can have, and the text of a value with one member or element on a line.
A string is written as a literal, which is a script literal as well: quotes, backslashes and control
characters are escaped, all else stands for itself.
-/

namespace BlockMarkup

inductive Json where
  | null
  | bool (value : Bool)
  /-- A number written with digits only. -/
  | natural (value : Nat)
  /-- Any other number, as it was written. -/
  | decimal (literal : String)
  /-- A string. A literal that escapes half of a surrogate pair has no text. -/
  | string (value : Option String)
  | array (elements : List Json)
  /-- Members in the order in which they were written, repeated names included. -/
  | object (members : List (Option String × Json))

namespace Json

/-- A digit in hexadecimal. -/
def hexDigit (n : Nat) : Char := (Nat.digitChar n)

/-- One character inside a literal. -/
def escapeChar (c : Char) : List Char :=
  if c = '"' then ['\\', '"']
  else if c = '\\' then ['\\', '\\']
  else if c = '\x08' then ['\\', 'b']
  else if c = '\x0c' then ['\\', 'f']
  else if c = '\n' then ['\\', 'n']
  else if c = '\r' then ['\\', 'r']
  else if c = '\t' then ['\\', 't']
  else if c.toNat < 0x20 then
    ['\\', 'u', '0', '0', hexDigit (c.toNat / 16), hexDigit (c.toNat % 16)]
  else [c]

/-- A text between double quotes. -/
def literal (s : String) : String :=
  String.ofList ('"' :: s.toList.flatMap escapeChar ++ ['"'])

/-- A string with a text. -/
def text (s : String) : Json := .string (some s)

/-- The line break before something at some depth. -/
def newline (depth : Nat) : String := "\n" ++ String.ofList (List.replicate (2 * depth) ' ')

mutual

/-- A value at some depth. -/
def pretty (depth : Nat) : Json → String
  | .null => "null"
  | .bool value => if value then "true" else "false"
  | .natural value => toString value
  | .decimal literal => literal
  | .string value => literal (value.getD "")
  | .array [] => "[]"
  | .array (first :: rest) =>
    "[" ++ newline (depth + 1) ++ pretty (depth + 1) first ++ prettyElements (depth + 1) rest ++
      newline depth ++ "]"
  | .object [] => "\x7b\x7d"
  | .object ((name, value) :: rest) =>
    "\x7b" ++ newline (depth + 1) ++ literal (name.getD "") ++ ": " ++ pretty (depth + 1) value ++
      prettyMembers (depth + 1) rest ++ newline depth ++ "\x7d"

/-- Elements behind the first. -/
def prettyElements (depth : Nat) : List Json → String
  | [] => ""
  | value :: rest => "," ++ newline depth ++ pretty depth value ++ prettyElements depth rest

/-- Members behind the first. -/
def prettyMembers (depth : Nat) : List (Option String × Json) → String
  | [] => ""
  | (name, value) :: rest =>
    "," ++ newline depth ++ literal (name.getD "") ++ ": " ++ pretty depth value ++
      prettyMembers depth rest

end

end Json

end BlockMarkup
