import BlockMarkup.Dict
import BlockMarkup.Name
import BlockMarkup.Number.Shortest
import BlockMarkup.Text.Blank

/-!
# Setting values

Values that settings are read from. A value is taken for what is wanted where that makes sense:
numbers for texts, words such as `yes` and `off` for truth values and numbers, and so on.
-/

namespace BlockMarkup

inductive Value where
  | null
  | bool (value : Bool)
  | int (value : Int)
  | real (value : Float)
  | text (value : String)
  | list (values : List Value)
  | table (entries : List (String × Value))

namespace Value

/-- The entries of a table. Other values have none. -/
def entries : Value → List (String × Value)
  | table entries => entries
  | _ => []

mutual

/-- Lays a value over another one. Tables are laid over tables entry by entry. -/
def layOn (new old : Value) : Value :=
  match new with
  | null => null
  | bool b => bool b
  | int n => int n
  | real x => real x
  | text s => text s
  | list values => list values
  | table entries => table (layEntriesOn entries old.entries)

def layEntriesOn (new old : List (String × Value)) : List (String × Value) :=
  match new with
  | [] => old
  | (key, value) :: rest =>
    layEntriesOn rest (Dict.put key (value.layOn ((old.lookup key).getD null)) old)

end

/-- The items of a list. Other values have none. -/
def items : Value → List Value
  | list values => values
  | _ => []

/-- A step from a value to one inside of it: to an entry of a table or to a place in a list. Places
below zero are counted from the end. -/
inductive Step where
  | key (name : String)
  | place (index : Int)
  deriving DecidableEq, Repr

/-- Makes room for a place in a list: empty values fill it up, at the end or in front. Gives the
place as well, counted from the front. -/
def withRoom (index : Int) (values : List Value) : List Value × Nat :=
  let place := if 0 ≤ index then index else values.length + index
  if place < 0 then (List.replicate (-place).toNat null ++ values, 0)
  else (values ++ List.replicate (place.toNat + 1 - values.length) null, place.toNat)

/-- Lays a value over what lies behind a path. Whatever has no entries or places of the wanted kind
gives way. -/
def putPath (value : Value) : (path : List Step) → (old : Value) → Value
  | [], old => value.layOn old
  | .key name :: path, old =>
    table (Dict.put name (putPath value path ((old.entries.lookup name).getD null)) old.entries)
  | .place index :: path, old =>
    let (values, place) := withRoom index old.items
    list (values.set place (putPath value path (values[place]?.getD null)))

def isKeyChar (c : Char) : Bool := isAsciiAlphanumeric c || c = '_' || c = '-'

/-- Reads a place, which may have blanks around it, up to its closing bracket. -/
def place? (cs : List Char) : Option (Int × List Char) :=
  let isBlank (c : Char) : Bool := c = ' ' || c = '\t'
  let cs := cs.dropWhile isBlank
  let sign := if cs.head? = some '-' then ['-'] else []
  let digits := (cs.drop sign.length).takeWhile Number.isDecimalDigit
  let rest := (cs.drop (sign ++ digits).length).dropWhile isBlank
  match Number.signed? 64 10 (sign ++ digits), rest with
  | some index, ']' :: rest => some (index, rest)
  | _, _ => none

/-- Reads the steps behind the first key: places in brackets, and keys behind dots. -/
def steps? : Nat → List Char → Option (List Step)
  | _, [] => some []
  | 0, _ => none
  | fuel + 1, c :: cs =>
    if c = '[' then
      match place? cs with
      | some (index, rest) => (steps? fuel rest).map (.place index :: ·)
      | none => none
    else
      let name := cs.takeWhile isKeyChar
      if c = '.' && !name.isEmpty then
        (steps? fuel (cs.dropWhile isKeyChar)).map (.key (String.ofList name) :: ·)
      else none

/-- The path that a key stands for: words between dots with places in brackets behind them, or
otherwise the key as a whole. -/
def keyPath (key : String) : List Step :=
  (steps? (key.length + 1) ('.' :: key.toList)).getD [.key key]

/-- Lays the entries of a table over a value, each at the path of its key. -/
def layer (new : List (String × Value)) (old : Value) : Value :=
  new.foldl (fun old (key, value) => putPath value (keyPath key) old) old

def asText? : Value → Option String
  | text s => some s
  | bool b => some (if b then "true" else "false")
  | int n => some (toString n)
  | real x => some (Number.floatText x)
  | null | list _ | table _ => none

/-- The truth value that a word in lower case stands for. -/
def word? (word : String) : Option Bool :=
  if word = "true" ∨ word = "on" ∨ word = "yes" then some true
  else if word = "false" ∨ word = "off" ∨ word = "no" then some false
  else none

def asNat? : Value → Option Nat
  | int n => if 0 ≤ n then some n.toNat else none
  | real x => some (Number.floatToNat 64 x)
  | bool b => some b.toNat
  | text s =>
    match word? (lowercased s) with
    | some b => some b.toNat
    | none => Number.unsigned? 64 10 s.toList
  | null | list _ | table _ => none

def asBool? : Value → Option Bool
  | bool b => some b
  | int n => some (n ≠ 0)
  | real x => some (x != 0.0)
  | text s =>
    let word := lowercased s
    if word = "1" then some true else if word = "0" then some false else word? word
  | null | list _ | table _ => none

end Value

end BlockMarkup
