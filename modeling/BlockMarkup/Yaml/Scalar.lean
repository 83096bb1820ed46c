import BlockMarkup.Number.Decimal
import BlockMarkup.Text.Blank

/-!
# Scalars

What a plain text stands for: nothing, a truth value, a number or a text.
-/

namespace BlockMarkup.Yaml

inductive Scalar where
  | null
  | bool (value : Bool)
  | int (value : Int)
  /-- A number with a point or an exponent, as it is written. -/
  | real (written : String)
  | text (value : String)
  deriving DecidableEq, Repr

/-- Integers that stand behind a mark for their radix or a plus sign. -/
def marked? : List Char → Option Int
  | '0' :: 'x' :: digits => Number.signed? 64 16 digits
  | '0' :: 'o' :: digits => Number.signed? 64 8 digits
  | '+' :: digits => Number.signed? 64 10 digits
  | _ => none

/-- The spellings of infinity and of no number. -/
def specialReals : List String :=
  [".inf", ".Inf", ".INF", "+.inf", "+.Inf", "+.INF", "-.inf", "-.Inf", "-.INF",
    ".nan", ".NaN", ".NAN"]

def isReal (word : String) : Bool :=
  specialReals.contains word ||
    (word.toList.any Number.isDecimalDigit && (Number.float? word.toList).isSome)

/-- What a plain text stands for. -/
def Scalar.ofPlain (word : String) : Scalar :=
  match marked? word.toList with
  | some n => .int n
  | none =>
    if word = "" ∨ word = "~" ∨ word = "null" then .null
    else if word = "true" ∨ word = "True" ∨ word = "TRUE" then .bool true
    else if word = "false" ∨ word = "False" ∨ word = "FALSE" then .bool false
    else
      match Number.signed? 64 10 word.toList with
      | some n => .int n
      | none => if isReal word then .real word else .text word

/-- What the handle of the tags for common types stands for. -/
def Scalar.coreTag : String := "tag:yaml.org,2002:"

/-- What a plain text with a tag stands for. Without a common type it is a text, and nothing where
it does not fit its type. -/
def Scalar.ofTagged (handle suffix word : String) : Scalar :=
  if handle ≠ coreTag then .text word
  else if suffix = "bool" then
    if word = "true" then .bool true else if word = "false" then .bool false else .null
  else if suffix = "int" then ((Number.signed? 64 10 word.toList).map Scalar.int).getD .null
  else if suffix = "float" then if isReal word then .real word else .null
  else if suffix = "null" then .null
  else .text word

/-- The key that a scalar is in a table, if it can be one. -/
def Scalar.key? : Scalar → Option String
  | null => none
  | bool b => some (if b then "true" else "false")
  | int n => some (toString n)
  | real written => some written
  | text s => some s

end BlockMarkup.Yaml
