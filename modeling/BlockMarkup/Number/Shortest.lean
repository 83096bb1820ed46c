import BlockMarkup.Number.Decimal

/-!
# The shortest text of a binary number

A finite binary number is written with the fewest decimal digits that read back as the same number,
and with those nearest to it if there are several. There is no exponent: zeros fill up the places
before the point or behind it.
-/

namespace BlockMarkup.Number

/-- The positive number `mantissa * 2 ^ exponent`. -/
structure Binary where
  mantissa : Nat
  exponent : Int
  /-- Whether the next smaller number is only half as far away as the next larger one. -/
  isPower : Bool

/-- The bit in front of the fraction, and the bit of the sign. -/
def hiddenBit : Nat := Nat.pow 2 52

def signBit : Nat := Nat.pow 2 63

/-- The parts of a number without its sign. -/
def Binary.ofFloat (x : Float) : Binary :=
  let bits := x.toBits.toNat % signBit
  let scale : Nat := bits / hiddenBit
  let fraction := bits % hiddenBit
  if scale = 0 then ⟨fraction, -1074, false⟩
  else ⟨fraction + hiddenBit, (scale - 1075 : Int), fraction = 0 ∧ 1 < scale⟩

/-- A fraction of natural numbers with a positive lower part. -/
structure Ratio where
  upper : Nat
  lower : Nat

/-- The number `n * 2 ^ e` as a fraction. -/
def Ratio.shift (n : Nat) (e : Int) : Ratio :=
  if 0 ≤ e then ⟨n * Nat.pow 2 e.toNat, 1⟩ else ⟨n, Nat.pow 2 (-e).toNat⟩

/-- The number `n * 10 ^ e` as a fraction. -/
def Ratio.decimal (n : Nat) (e : Int) : Ratio :=
  if 0 ≤ e then ⟨n * Nat.pow 10 e.toNat, 1⟩ else ⟨n, Nat.pow 10 (-e).toNat⟩

def Ratio.le (a b : Ratio) : Bool := a.upper * b.lower ≤ b.upper * a.lower

def Ratio.lt (a b : Ratio) : Bool := a.upper * b.lower < b.upper * a.lower

/-- How many times `b` goes into `a`. -/
def Ratio.quotient (a b : Ratio) : Nat := a.upper * b.lower / (a.lower * b.upper)

/-- The distance of two fractions. -/
def Ratio.distance (a b : Ratio) : Ratio :=
  let p := a.upper * b.lower
  let q := b.upper * a.lower
  ⟨(p - q) + (q - p), a.lower * b.lower⟩

namespace Binary

def value (b : Binary) : Ratio := .shift b.mantissa b.exponent

/-- Halfway to the next larger number. -/
def above (b : Binary) : Ratio := .shift (4 * b.mantissa + 2) (b.exponent - 2)

/-- Halfway to the next smaller number. -/
def below (b : Binary) : Ratio :=
  .shift (4 * b.mantissa - if b.isPower then 1 else 2) (b.exponent - 2)

/-- Whether a fraction reads back as the number. Halfway it does for even mantissas. -/
def accepts (b : Binary) (r : Ratio) : Bool :=
  if b.mantissa % 2 = 0 then b.below.le r && r.le b.above else b.below.lt r && r.lt b.above

/-- The largest exponent of ten from `e` downwards whose power is not above the number. -/
def leadingExponent (b : Binary) (e : Int) : Nat → Int
  | 0 => e
  | n + 1 => if (Ratio.decimal 1 e).le b.value then e else leadingExponent b (e - 1) n

/-- The multiple of `10 ^ e` nearest to the number among those that read back. Of two that are
equally near, it is the larger one. -/
def onGrid (b : Binary) (e : Int) : Option (Nat × Int) :=
  let n := b.value.quotient (.decimal 1 e)
  let floor := Ratio.decimal n e
  let ceiling := Ratio.decimal (n + 1) e
  match b.accepts floor, b.accepts ceiling with
  | true, true =>
    if (ceiling.distance b.value).le (floor.distance b.value) then some (n + 1, e) else some (n, e)
  | true, false => some (n, e)
  | false, true => some (n + 1, e)
  | false, false => none

/-- Looks for the coarsest grid with a number that reads back. -/
def coarsest (b : Binary) (e : Int) : Nat → Nat × Int
  | 0 => (b.value.quotient (.decimal 1 e), e)
  | n + 1 =>
    match b.onGrid e with
    | some found => found
    | none => coarsest b (e - 1) n

/-- The largest exponent of ten of a finite number, and how many exponents there are. -/
def topExponent : Int := 308

def exponentCount : Nat := 640

/-- Seventeen digits are always enough. -/
def maxDigits : Nat := 17

/-- The shortest decimal number that reads back, as digits and an exponent. -/
def shortest (b : Binary) : Nat × Int :=
  b.coarsest (b.leadingExponent topExponent exponentCount) maxDigits

end Binary

/-- The digits of a number without zeros at its end, and how many zeros there were. -/
def stripZeros : List Char → List Char × Nat
  | [] => ([], 0)
  | c :: cs =>
    match stripZeros cs with
    | ([], n) => if c = '0' then ([], n + 1) else ([c], n)
    | (rest, n) => (c :: rest, n)

/-- The number `n * 10 ^ e` without an exponent. -/
def positional (n : Nat) (e : Int) : String :=
  let (digits, zeros) := stripZeros (Nat.toDigits 10 n)
  let point : Int := digits.length + zeros + e
  let filler (n : Nat) := List.replicate n '0'
  if point ≤ 0 then "0." ++ String.ofList (filler (-point).toNat ++ digits)
  else if digits.length ≤ point.toNat then
    String.ofList (digits ++ filler (point.toNat - digits.length))
  else
    String.ofList (digits.take point.toNat) ++ "." ++ String.ofList (digits.drop point.toNat)

/-- The text of a number. -/
def floatText (x : Float) : String :=
  let sign := if signBit ≤ x.toBits.toNat then "-" else ""
  if x.isNaN then "NaN"
  else if x.isInf then sign ++ "inf"
  else
    let b := Binary.ofFloat x
    if b.mantissa = 0 then sign ++ "0"
    else
      let (n, e) := b.shortest
      sign ++ positional n e

/-- The nearest natural number that fits into a word of `bits` bits; a half goes up. What is
negative or no number gives zero. -/
def floatToNat (bits : Nat) (x : Float) : Nat :=
  let most := Nat.pow 2 bits - 1
  if x.isNaN || signBit ≤ x.toBits.toNat then 0
  else if x.isInf then most
  else
    let r := (Binary.ofFloat x).value
    min most ((2 * r.upper + r.lower) / (2 * r.lower))

end BlockMarkup.Number
