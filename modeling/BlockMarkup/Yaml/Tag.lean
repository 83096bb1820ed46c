import BlockMarkup.Number.Integer
import BlockMarkup.Yaml.Cursor
import BlockMarkup.Yaml.Token

/-!
# Names, tags and rules

A value may have a name, which others refer to, and a tag, which tells its type. The handle of a tag
is short for what a rule at the beginning of the text says.
-/

namespace BlockMarkup.Yaml

/-- The characters of a name. -/
def isAnchorChar (c : Char) : Bool := !isGap c && c ≠ '\n' && c ≠ '\uFEFF' && !isFlowSign c

/-- Reads the name behind `&` or `*`. -/
def anchorName? (c : Cursor) : Option (String × Cursor) :=
  let name := c.next.rest.takeWhile isAnchorChar
  if name.isEmpty then none else some (String.ofList name, c.next.advance name.length)

/-- The signs that may stand in a tag besides letters and digits. -/
def uriSigns : List Char := "-#;/?:@&=+$,_.!~*'()[]%".toList

def isUriChar (c : Char) : Bool := isAsciiAlphanumeric c || uriSigns.contains c

def isTagChar (c : Char) : Bool := isUriChar c && !isFlowSign c && c ≠ '!'

/-- Reads a byte that is written as a percent sign and two digits. -/
def uriByte? (c : Cursor) : Option (Nat × Cursor) :=
  if c.isAt '%' && (c.rest.drop 1).length ≥ 2 then
    (Number.natural? 16 ((c.rest.drop 1).take 2)).map fun n => (n, c.advance 3)
  else none

/-- Reads the bytes that go on with a character. -/
def uriBytes? : Nat → Nat → Cursor → Option (Nat × Cursor)
  | 0, code, c => some (code, c)
  | n + 1, code, c =>
    match uriByte? c with
    | some (byte, c) => if byte / 64 = 2 then uriBytes? n (code * 64 + byte % 64) c else none
    | none => none

/-- Reads a character that is written with percent signs. -/
def uriEscape? (c : Cursor) : Option (Char × Cursor) :=
  match uriByte? c with
  | none => none
  | some (byte, c) =>
    let found :=
      if byte / 128 = 0 then some (byte, c)
      else if byte / 32 = 6 then uriBytes? 1 (byte % 32) c
      else if byte / 16 = 14 then uriBytes? 2 (byte % 16) c
      else if byte / 8 = 30 then uriBytes? 3 (byte % 8) c
      else none
    match found with
    | some (code, c) => if code.isValidChar then some (Char.ofNat code, c) else none
    | none => none

/-- Reads characters that satisfy `p`, of which some may be written with percent signs. -/
def uriText? (p : Char → Bool) : Nat → List Char → Cursor → Option (List Char × Cursor)
  | 0, text, c => some (text.reverse, c)
  | fuel + 1, text, c =>
    match c.rest with
    | [] => some (text.reverse, c)
    | d :: _ =>
      if !p d then some (text.reverse, c)
      else if d = '%' then
        match uriEscape? c with
        | some (e, c) => uriText? p fuel (e :: text) c
        | none => none
      else uriText? p fuel (d :: text) c.next

/-- Reads a handle: an exclamation mark, and perhaps a word and another one. -/
def handle? (c : Cursor) : Option (List Char × Cursor) :=
  if c.isAt '!' then
    let word := c.next.rest.takeWhile isWordChar
    let behind := c.next.advance word.length
    if behind.isAt '!' then some ('!' :: word ++ ['!'], behind.next) else some ('!' :: word, behind)
  else none

/-- Whether a handle stands between two exclamation marks. -/
def isClosedHandle (handle : List Char) : Bool :=
  2 ≤ handle.length && handle.getLast? = some '!'

/-- Reads a tag: its handle, and what stands behind it. -/
def tagParts? (c : Cursor) : Option (String × String × Cursor) :=
  let fuel := c.rest.length + 1
  if "!<".toList.isPrefixOf c.rest then
    match uriText? isUriChar fuel [] (c.advance 2) with
    | some (text, c) => if c.isAt '>' then some ("", String.ofList text, c.next) else none
    | none => none
  else
    match handle? c with
    | none => none
    | some (handle, c) =>
      match uriText? isTagChar fuel [] c with
      | none => none
      | some (text, c) =>
        if isClosedHandle handle then some (String.ofList handle, String.ofList text, c)
        else
          let suffix := handle.drop 1 ++ text
          if suffix.isEmpty then some ("", "!", c) else some ("!", String.ofList suffix, c)

/-- Reads a tag that a blank or the end of a line follows, or a sign of the brackets around it. -/
def tag? (inFlow : Bool) (c : Cursor) : Option (Token × Cursor) :=
  match tagParts? c with
  | some (handle, suffix, behind) =>
    if atGap behind.rest || (inFlow && behind.rest.head?.any isFlowSign) then
      some (.tag handle suffix c.column, behind)
    else none
  | none => none

/-- Reads up to nine digits of a version. -/
def versionDigits? (c : Cursor) : Option Cursor :=
  let digits := (c.rest.takeWhile Number.isDecimalDigit).length
  if 1 ≤ digits && digits ≤ 9 then some (c.advance digits) else none

/-- Reads the rule for the version. -/
def versionRule? (c : Cursor) : Option (Token × Cursor) := do
  let c ← versionDigits? (c.skip isGap)
  if c.isAt '.' then (versionDigits? c.next).map (Token.version, ·) else none

/-- Reads a rule for a handle. -/
def handleRule? (c : Cursor) : Option (Token × Cursor) := do
  let (handle, c) ← handle? (c.skip isGap)
  if handle.getLast? ≠ some '!' then none
  else
    let c := c.skip isGap
    if !c.rest.head?.any (fun d => d = '!' || isTagChar d) then none
    else
      let (first, c) := if c.isAt '!' then (['!'], c.next) else ([], c)
      let (meaning, c) ← uriText? isUriChar (c.rest.length + 1) [] c
      if atGap c.rest then
        some (.handle (String.ofList handle) (String.ofList (first ++ meaning)), c)
      else none

/-- Reads a rule, which stands behind a percent sign and has a line of its own. Rules with other
names mean nothing. -/
def rule? (c : Cursor) : Option (Token × Cursor) := do
  let name := c.next.rest.takeWhile isWordChar
  let behind := c.next.advance name.length
  if name.isEmpty || !atGap behind.rest then none
  else
    let (token, behind) ←
      if name = "YAML".toList then versionRule? behind
      else if name = "TAG".toList then handleRule? behind
      else some (.handle "" "", behind.skipComment)
    match behind.skipEmptyLine? with
    | some behind => some (token, behind.next)
    | none => none

end BlockMarkup.Yaml
