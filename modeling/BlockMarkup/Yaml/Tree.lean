import BlockMarkup.Yaml.Scalar
import BlockMarkup.Yaml.Scan

/-!
# Values

Tokens are read as one value: a scalar, a list or a map. The keys of a map are scalars and all
different.
-/

namespace BlockMarkup

inductive Yaml where
  | scalar (value : Yaml.Scalar)
  | list (values : List Yaml)
  | map (entries : List (Yaml.Scalar × Yaml))

namespace Yaml

def null : Yaml := .scalar .null

/-- Adds an entry to a map, unless its key is no scalar or is there already. -/
def insertNew? (entries : List (Scalar × Yaml)) (key value : Yaml) :
    Option (List (Scalar × Yaml)) :=
  match key with
  | .scalar key =>
    if (entries.map (·.1)).contains key then none else some (entries ++ [(key, value)])
  | _ => none

/-- What is known while tokens are read: the meanings of handles, and the values with names. Names
that are given again refer to the newer value, and inside of itself a value is empty. -/
structure Reader where
  tokens : List Token
  handles : List (String × String)
  /-- The number of the value that a name refers to, newest first. -/
  names : List (String × Nat)
  /-- The values by their numbers. -/
  values : List (Nat × Yaml)

/-- What is told about a value before it: the number it is known by, and its tag. -/
structure Property where
  number : Option Nat
  tag : Option (String × String)

abbrev ReadM := StateT Reader Option

namespace Reader

def peek : ReadM (Option Token) := do return (← get).tokens.head?

def drop : ReadM Unit := modify fun r => { r with tokens := r.tokens.tail }

/-- Whether one of some tokens comes next. -/
def isNext (candidates : List Token) : ReadM Bool := do
  return (← peek).any candidates.contains

/-- Moves past a token if it comes next. -/
def accept (t : Token) : ReadM Bool := do
  if (← peek) = some t then
    drop
    return true
  else return false

def fail {α : Type} : ReadM α := fun _ => none

/-- Gives the next value a number, which `name` refers to from now on. -/
def register (name : String) : ReadM Nat := modifyGet fun r =>
  (r.names.length, { r with names := (name, r.names.length) :: r.names })

/-- The value that a name refers to. -/
def resolve (name : String) : ReadM Yaml := do
  match (← get).names.lookup name with
  | some number => return ((← get).values.lookup number).getD null
  | none => fail

/-- Remembers a value by its number. -/
def remember (p : Property) (value : Yaml) : ReadM Yaml := do
  match p.number with
  | some number => modify fun r => { r with values := (number, value) :: r.values }
  | none => pure ()
  return value

/-- What the handle of a tag stands for. -/
def handleMeaning (handle : String) : ReadM String := do
  match (← get).handles.lookup handle with
  | some meaning => return meaning
  | none =>
    if handle = "!!" then return Scalar.coreTag
    else if isClosedHandle handle.toList then fail
    else return handle

def anchor? : ReadM (Option Nat) := do
  match ← peek with
  | some (.anchor name _) => drop; return some (← register name)
  | _ => return none

def tag? : ReadM (Option (String × String)) := do
  match ← peek with
  | some (.tag handle suffix _) => drop; return some (← handleMeaning handle, suffix)
  | _ => return none

/-- Reads what is told about a value: a name, a tag, or both in either order. -/
def property : ReadM Property := do
  match ← anchor? with
  | some number => return ⟨some number, ← tag?⟩
  | none =>
    match ← tag? with
    | some tag => return ⟨← anchor?, some tag⟩
    | none => return ⟨none, none⟩

def plain (p : Property) (text : String) : Yaml :=
  match p.tag with
  | some (handle, suffix) => .scalar (.ofTagged handle suffix text)
  | none => .scalar (.ofPlain text)

/-- A value that is empty, but of which something is told. -/
def empty (p : Property) : ReadM Yaml :=
  if p.number.isSome || p.tag.isSome then remember p (plain p "") else fail

/-- The tokens that stand where a value of a block is empty. -/
def endsEntry : List Token := [.key, .value, .blockEnd]

mutual

/-- Reads a value. Blocks are read where `inBlock` holds, and a list without a block of its own
where `isBare` holds. -/
def node : Nat → (inBlock isBare : Bool) → ReadM Yaml
  | 0, _, _ => fail
  | fuel + 1, inBlock, isBare => do
    match ← peek with
    | some (.alias name) => drop; resolve name
    | _ =>
      let p ← property
      match ← peek with
      | some (.plain text) => drop; remember p (plain p text)
      | some (.quoted text) => drop; remember p (.scalar (.text text))
      | some .flowList => drop; remember p (← flowList fuel true [])
      | some .flowMap => drop; remember p (← flowMap fuel true [])
      | some .dash => if isBare then remember p (← bareList fuel []) else empty p
      | some .blockList =>
        if inBlock then
          drop
          remember p (← blockList fuel [])
        else empty p
      | some .blockMap =>
        if inBlock then
          drop
          remember p (← blockMap fuel [])
        else empty p
      | _ => empty p

/-- Reads the value behind a key or its colon in a block. -/
def entryNode : Nat → ReadM Yaml
  | 0 => fail
  | fuel + 1 => do
    if ← isNext endsEntry then return null else node fuel true true

def blockMap : Nat → List (Scalar × Yaml) → ReadM Yaml
  | 0, _ => fail
  | fuel + 1, entries => do
    if ← accept .blockEnd then return .map entries
    else
      let key ←
        if ← accept .key then entryNode fuel
        else if ← isNext [.value] then pure null
        else fail
      let value ← if ← accept .value then entryNode fuel else pure null
      match insertNew? entries key value with
      | some entries => blockMap fuel entries
      | none => fail

def blockList : Nat → List Yaml → ReadM Yaml
  | 0, _ => fail
  | fuel + 1, values => do
    if ← accept .blockEnd then return .list values
    else if ← accept .dash then
      let value ← if ← isNext [.dash, .blockEnd] then pure null else node fuel true false
      blockList fuel (values ++ [value])
    else fail

/-- A list whose dashes stand in the column of the key above them. -/
def bareList : Nat → List Yaml → ReadM Yaml
  | 0, _ => fail
  | fuel + 1, values => do
    if ← accept .dash then
      let value ← if ← isNext (.dash :: endsEntry) then pure null else node fuel true false
      bareList fuel (values ++ [value])
    else return .list values

/-- Reads the entries of a list in brackets. A key with its value is a map of its own. -/
def flowList : Nat → (isFirst : Bool) → List Yaml → ReadM Yaml
  | 0, _, _ => fail
  | fuel + 1, isFirst, values => do
    if ← accept .flowListEnd then return .list values
    else if !isFirst && !(← accept .comma) then fail
    else if ← accept .flowListEnd then return .list values
    else if ← accept .key then
      let key ← node fuel false false
      let value ← if ← accept .value then flowNode fuel else pure null
      match insertNew? [] key value with
      | some entries => flowList fuel false (values ++ [.map entries])
      | none => fail
    else flowList fuel false (values ++ [← node fuel false false])

/-- Reads the value behind a colon in brackets. -/
def flowNode : Nat → ReadM Yaml
  | 0 => fail
  | fuel + 1 => do
    if ← isNext [.comma, .flowListEnd, .flowMapEnd] then return null else node fuel false false

/-- Reads the entries of a map in braces. A key may stand alone. -/
def flowMap : Nat → (isFirst : Bool) → List (Scalar × Yaml) → ReadM Yaml
  | 0, _, _ => fail
  | fuel + 1, isFirst, entries => do
    if ← accept .flowMapEnd then return .map entries
    else if !isFirst && !(← accept .comma) then fail
    else if ← accept .flowMapEnd then return .map entries
    else
      let (key, value) ← do
        if ← accept .key then
          let key ← node fuel false false
          pure (key, ← if ← accept .value then flowNode fuel else pure null)
        else if ← isNext [.value] then fail
        else pure (← node fuel false false, null)
      match insertNew? entries key value with
      | some entries => flowMap fuel false entries
      | none => fail

end

/-- Reads the rules in front of a document. The last one counts, and there is one version at
most. -/
def rules : Nat → (hasVersion : Bool) → ReadM Unit
  | 0, _ => fail
  | fuel + 1, hasVersion => do
    match ← peek with
    | some .version =>
      if hasVersion then fail
      else
        drop
        modify fun r => { r with handles := [] }
        rules fuel true
    | some (.handle name meaning) =>
      drop
      modify fun r => { r with handles := [(name, meaning)] }
      rules fuel hasVersion
    | _ => pure ()

/-- Whether a document has no value. -/
def isAtEnd : ReadM Bool := do
  match ← peek with
  | none | some .documentStart | some .documentEnd | some .version | some (.handle _ _) =>
    return true
  | _ => return false

/-- Reads a document. Behind rules it starts with its mark. -/
def document (fuel : Nat) : ReadM Yaml := do
  let ruled := (← get).tokens
  rules fuel false
  if ← accept .documentStart then
    if ← isAtEnd then return null else node fuel true false
  else if (← get).tokens.length = ruled.length then node fuel true false
  else fail

end Reader

/-- Reads tokens that hold one document or none. -/
def ofTokens? (tokens : List Token) : Option (Option Yaml) :=
  let isMark (t : Token) : Bool := t = .documentEnd
  match tokens.dropWhile isMark with
  | [] => some none
  | tokens =>
    match Reader.document (4 * tokens.length + 4) ⟨tokens, [], [], []⟩ with
    | some (value, rest) => if rest.tokens.all isMark then some (some value) else none
    | none => none

/-- Reads a text that holds one document or none. -/
def read? (text : String) : Option (Option Yaml) := (tokens? text).bind ofTokens?

end Yaml

end BlockMarkup
