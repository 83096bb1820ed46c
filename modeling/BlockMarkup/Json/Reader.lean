import BlockMarkup.Json.Value
import BlockMarkup.Name

/-!
# Reading JSON

Reads a JSON text strictly: one value with nothing but spaces, tabs and line breaks around it. Every
function takes the characters ahead and returns what it has read together with those behind it.
-/

namespace BlockMarkup.Json

def isSpace (c : Char) : Bool := c = ' ' || c = '\n' || c = '\t' || c = '\r'

/-- The value of a hexadecimal digit in either case. -/
def hexValue? (c : Char) : Option Nat :=
  if '0' ≤ c && c ≤ '9' then some (c.toNat - '0'.toNat)
  else if 'a' ≤ c && c ≤ 'f' then some (c.toNat - 'a'.toNat + 10)
  else if 'A' ≤ c && c ≤ 'F' then some (c.toNat - 'A'.toNat + 10)
  else none

/-- The number written with four hexadecimal digits. -/
def hexUnit? : List Char → Option (Nat × List Char)
  | a :: b :: c :: d :: rest => do
    let a ← hexValue? a
    let b ← hexValue? b
    let c ← hexValue? c
    let d ← hexValue? d
    some (((a * 16 + b) * 16 + c) * 16 + d, rest)
  | _ => none

/-- The character that a short escape stands for. -/
def shortEscape? (c : Char) : Option Char :=
  if c = '"' || c = '\\' || c = '/' then some c
  else if c = 'b' then some '\x08'
  else if c = 'f' then some '\x0c'
  else if c = 'n' then some '\n'
  else if c = 'r' then some '\r'
  else if c = 't' then some '\t'
  else none

/-- A piece of a string: a character, or one half of a surrogate pair. -/
inductive Unit16 where
  | char (c : Char)
  | half (n : Nat)
  deriving DecidableEq, Repr

/-- The piece that a code unit stands for. -/
def Unit16.ofNat (n : Nat) : Unit16 :=
  if 0xD800 ≤ n && n ≤ 0xDFFF then .half n else .char (Char.ofNat n)

/-- The text of pieces. Two halves in the right order make one character; any other half makes the
string have no text. -/
def joinUnits : List Unit16 → Option (List Char)
  | [] => some []
  | .char c :: rest => (joinUnits rest).map (c :: ·)
  | .half high :: .half low :: rest =>
    if high < 0xDC00 && 0xDC00 ≤ low then
      (joinUnits rest).map (Char.ofNat (0x10000 + (high - 0xD800) * 0x400 + (low - 0xDC00)) :: ·)
    else none
  | .half _ :: _ => none

/-- Reads the pieces of a string up to its closing quote. Control characters have to be escaped. -/
def stringUnits : Nat → List Char → Option (List Unit16 × List Char)
  | 0, _ => none
  | _ + 1, [] => none
  | fuel + 1, c :: rest =>
    if c = '"' then some ([], rest)
    else if c = '\\' then
      match rest with
      | [] => none
      | e :: rest =>
        if e = 'u' then do
          let (unit, rest) ← hexUnit? rest
          let (units, rest) ← stringUnits fuel rest
          some (Unit16.ofNat unit :: units, rest)
        else do
          let d ← shortEscape? e
          let (units, rest) ← stringUnits fuel rest
          some (.char d :: units, rest)
    else if c.toNat < 0x20 then none
    else do
      let (units, rest) ← stringUnits fuel rest
      some (.char c :: units, rest)

/-- Reads a string behind its opening quote. -/
def readString (cs : List Char) : Option (Option String × List Char) := do
  let (units, rest) ← stringUnits (cs.length + 1) cs
  some ((joinUnits units).map String.ofList, rest)

/-- The number written with decimal digits. -/
def digitsValue (digits : List Char) : Nat :=
  digits.foldl (fun n c => n * 10 + (c.toNat - '0'.toNat)) 0

/-- Reads a digit and the digits behind it. -/
def readDigits (cs : List Char) : Option (List Char × List Char) :=
  match cs.takeWhile isAsciiDigit with
  | [] => none
  | digits => some (digits, cs.dropWhile isAsciiDigit)

/-- Reads the digits before the point: a zero stands alone. -/
def readWhole (cs : List Char) : Option (List Char × List Char) := do
  let (digits, rest) ← readDigits cs
  if digits.head? = some '0' && digits.length ≠ 1 then none else some (digits, rest)

/-- Reads a point and the digits behind it, if there is a point. -/
def readFraction : List Char → Option (List Char × List Char)
  | '.' :: rest => do
    let (digits, rest) ← readDigits rest
    some ('.' :: digits, rest)
  | cs => some ([], cs)

/-- Reads an exponent, if there is one. -/
def readExponent : List Char → Option (List Char × List Char)
  | [] => some ([], [])
  | e :: rest =>
    if e = 'e' || e = 'E' then
      match rest with
      | [] => none
      | sign :: more =>
        if sign = '+' || sign = '-' then do
          let (digits, rest) ← readDigits more
          some (e :: sign :: digits, rest)
        else do
          let (digits, rest) ← readDigits rest
          some (e :: digits, rest)
    else some ([], e :: rest)

/-- Reads a number. -/
def readNumber (cs : List Char) : Option (Json × List Char) := do
  let (sign, rest) := match cs with
    | '-' :: rest => (['-'], rest)
    | _ => ([], cs)
  let (whole, rest) ← readWhole rest
  let (fraction, rest) ← readFraction rest
  let (exponent, rest) ← readExponent rest
  if sign.isEmpty && fraction.isEmpty && exponent.isEmpty then
    some (.natural (digitsValue whole), rest)
  else some (.decimal (String.ofList (sign ++ whole ++ fraction ++ exponent)), rest)

/-- What stands behind `word`, if the characters begin with it. -/
def dropWord : (word cs : List Char) → Option (List Char)
  | [], cs => some cs
  | _ :: _, [] => none
  | w :: word, c :: cs => if w = c then dropWord word cs else none

mutual

/-- Reads a value. -/
def readValue : Nat → List Char → Option (Json × List Char)
  | 0, _ => none
  | fuel + 1, cs =>
    match cs.dropWhile isSpace with
    | [] => none
    | c :: rest =>
      if c = '"' then (readString rest).map fun (s, rest) => (.string s, rest)
      else if c = '[' then
        match rest.dropWhile isSpace with
        | ']' :: rest => some (.array [], rest)
        | rest => (readElements fuel rest).map fun (elements, rest) => (.array elements, rest)
      else if c = '{' then
        match rest.dropWhile isSpace with
        | '}' :: rest => some (.object [], rest)
        | rest => (readMembers fuel rest).map fun (members, rest) => (.object members, rest)
      else if c = 't' then (dropWord "rue".toList rest).map fun rest => (.bool true, rest)
      else if c = 'f' then (dropWord "alse".toList rest).map fun rest => (.bool false, rest)
      else if c = 'n' then (dropWord "ull".toList rest).map fun rest => (.null, rest)
      else readNumber (c :: rest)

/-- Reads the elements of an array, of which there is at least one, and the closing bracket. -/
def readElements : Nat → List Char → Option (List Json × List Char)
  | 0, _ => none
  | fuel + 1, cs => do
    let (value, rest) ← readValue fuel cs
    match rest.dropWhile isSpace with
    | ']' :: rest => some ([value], rest)
    | ',' :: rest =>
      let (values, rest) ← readElements fuel rest
      some (value :: values, rest)
    | _ => none

/-- Reads the members of an object, of which there is at least one, and the closing brace. -/
def readMembers : Nat → List Char → Option (List (Option String × Json) × List Char)
  | 0, _ => none
  | fuel + 1, cs =>
    match cs.dropWhile isSpace with
    | '"' :: rest => do
      let (name, rest) ← readString rest
      match rest.dropWhile isSpace with
      | ':' :: rest =>
        let (value, rest) ← readValue fuel rest
        match rest.dropWhile isSpace with
        | '}' :: rest => some ([(name, value)], rest)
        | ',' :: rest =>
          let (members, rest) ← readMembers fuel rest
          some ((name, value) :: members, rest)
        | _ => none
      | _ => none
    | _ => none

end

/-- Reads a text that holds one value. -/
def read (s : String) : Option Json := do
  let cs := s.toList
  let (value, rest) ← readValue (cs.length + 1) cs
  if (rest.dropWhile isSpace).isEmpty then some value else none

end BlockMarkup.Json
