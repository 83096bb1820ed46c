/-!
# Integers as text

Integers written in a radix, with the bounds of machine words.
-/

namespace BlockMarkup.Number

/-- The value of a digit; letters of either case stand for ten and more. -/
def digit? (c : Char) : Option Nat :=
  if '0' ≤ c ∧ c ≤ '9' then some (c.toNat - '0'.toNat)
  else if 'a' ≤ c ∧ c ≤ 'z' then some (c.toNat - 'a'.toNat + 10)
  else if 'A' ≤ c ∧ c ≤ 'Z' then some (c.toNat - 'A'.toNat + 10)
  else none

def isDecimalDigit (c : Char) : Bool := '0' ≤ c && c ≤ '9'

/-- Reads digits behind those that make up `n`. -/
def readDigits (radix n : Nat) : List Char → Option Nat
  | [] => some n
  | c :: cs =>
    match digit? c with
    | some d => if d < radix then readDigits radix (n * radix + d) cs else none
    | none => none

/-- Reads a number that consists of digits only, of one at least. -/
def natural? (radix : Nat) (cs : List Char) : Option Nat :=
  if cs.isEmpty then none else readDigits radix 0 cs

/-- Reads a number that may have a sign. -/
def integer? (radix : Nat) : List Char → Option Int
  | '+' :: cs => (natural? radix cs).map Int.ofNat
  | '-' :: cs => (natural? radix cs).map fun n => - Int.ofNat n
  | cs => (natural? radix cs).map Int.ofNat

/-- Reads a number in the range of signed words of `bits` bits. -/
def signed? (bits radix : Nat) (cs : List Char) : Option Int :=
  let bound := Int.ofNat (Nat.pow 2 (bits - 1))
  (integer? radix cs).filter fun n => -bound ≤ n ∧ n < bound

/-- Reads a number in the range of unsigned words of `bits` bits. It may have a plus sign. -/
def unsigned? (bits radix : Nat) : List Char → Option Nat
  | '+' :: cs => (natural? radix cs).filter (· < Nat.pow 2 bits)
  | cs => (natural? radix cs).filter (· < Nat.pow 2 bits)

end BlockMarkup.Number
