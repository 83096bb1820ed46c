import BlockMarkup.Number.Integer
import BlockMarkup.Text.Blank

/-!
# Decimal numbers as text

Reading numbers with a decimal point and an exponent.
-/

namespace BlockMarkup

/-- The number `digits * 10 ^ exponent`, or its negation. -/
structure Decimal where
  negative : Bool
  digits : Nat
  exponent : Int
  deriving DecidableEq, Repr

namespace Decimal

/-- Cuts a text behind its leading digits. -/
def spanDigits (cs : List Char) : List Char × List Char :=
  (cs.takeWhile Number.isDecimalDigit, cs.dropWhile Number.isDecimalDigit)

/-- Reads what stands behind the digits: nothing, or an exponent. -/
def exponent? : List Char → Option Int
  | [] => some 0
  | c :: cs => if c = 'e' ∨ c = 'E' then Number.integer? 10 cs else none

/-- Reads a number without a sign: digits with or without a point, one digit at least, and then an
exponent if there is one. -/
def unsigned? (negative : Bool) (cs : List Char) : Option Decimal :=
  let (whole, rest) := spanDigits cs
  let (fraction, rest) :=
    match rest with
    | '.' :: rest => spanDigits rest
    | rest => ([], rest)
  match Number.natural? 10 (whole ++ fraction), exponent? rest with
  | some digits, some exponent => some ⟨negative, digits, exponent - fraction.length⟩
  | _, _ => none

/-- Reads a number that may have a sign. -/
def read? : List Char → Option Decimal
  | '+' :: cs => unsigned? false cs
  | '-' :: cs => unsigned? true cs
  | cs => unsigned? false cs

/-- How many digits a number has. -/
def width (n : Nat) : Nat := (Nat.toDigits 10 n).length

/-- The size from which on a number counts as infinite, and below which as zero, as an exponent of
ten. Both lie outside the range of binary numbers with 64 bits. -/
def overflow : Int := 400

def underflow : Int := -400

/-- The nearest binary number. -/
def magnitude (d : Decimal) : Float :=
  let size := d.exponent + width d.digits
  if d.digits = 0 ∨ size < underflow then 0.0
  else if overflow < size then 1.0 / 0.0
  else Float.ofScientific d.digits (d.exponent < 0) d.exponent.natAbs

def toFloat (d : Decimal) : Float := if d.negative then - d.magnitude else d.magnitude

end Decimal

namespace Number

def infinity : Float := 1.0 / 0.0

/-- The words for numbers that have no digits, in lower case. -/
def word? (name : List Char) : Option Float :=
  if name = "inf".toList ∨ name = "infinity".toList then some infinity
  else if name = "nan".toList then some (0.0 / 0.0)
  else none

/-- Reads a decimal number or one of the words for infinity and for no number, which may have a sign
and are read in either case. -/
def float? (cs : List Char) : Option Float :=
  match Decimal.read? cs with
  | some d => some d.toFloat
  | none =>
    match cs.map Char.toLower with
    | '+' :: name => word? name
    | '-' :: name => (word? name).map (- ·)
    | name => word? name

end Number

end BlockMarkup
