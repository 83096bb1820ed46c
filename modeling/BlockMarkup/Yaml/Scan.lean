import BlockMarkup.Yaml.Literal
import BlockMarkup.Yaml.Plain
import BlockMarkup.Yaml.Quoted
import BlockMarkup.Yaml.Tag

/-!
# Cutting a text into tokens

Indentation opens and closes blocks, and a value is found to be a key only when its colon is
reached. The scanner therefore keeps the open blocks and, for every open bracket, the place where a
key may have started, and it puts the tokens for a key and for its map in front of that place
afterwards.
-/

namespace BlockMarkup.Yaml

/-- A place where a key may have started. -/
structure KeyStart where
  isPossible : Bool
  /-- Whether what stands there has to be a key. -/
  isRequired : Bool
  /-- How many tokens stand before it. -/
  before : Nat
  cursor : Cursor

/-- An open indentation. Behind a key or a dash a column is indented that opens no block. -/
structure Level where
  /-- The indentation around it. -/
  outer : Int
  isBlock : Bool

structure Scanner where
  cursor : Cursor
  /-- The tokens, last first. -/
  tokens : List Token
  /-- Whether a key may start here. -/
  keyAllowed : Bool
  /-- Where a key may have started: inside of the innermost bracket first, outside of all last. -/
  keys : List KeyStart
  indent : Int
  levels : List Level
  /-- How many brackets are open. -/
  depth : Nat
  /-- Where a colon may stand directly before a value. -/
  adjacentAt : Nat
  /-- Whether the map of the next colon was opened already. -/
  mapOpened : Bool
  /-- For each open list, innermost first, whether a pair that is a map of its own was opened. -/
  pairs : List Bool

namespace Scanner

def noKey (c : Cursor) : KeyStart := ⟨false, false, 0, c⟩

def start (cs : List Char) : Scanner :=
  let c := Cursor.start cs
  ⟨c, [], true, [noKey c], -1, [], 0, 0, false, []⟩

/-- How many brackets may be open. -/
def maxDepth : Nat := 255

/-- How many characters may stand between the beginning of a key and its colon. -/
def maxKeyLength : Nat := 1024

def inFlow (s : Scanner) : Bool := s.depth ≠ 0

def context (s : Scanner) : Context := ⟨s.indent, !s.levels.isEmpty, s.inFlow⟩

def push (s : Scanner) (t : Token) : Scanner := { s with tokens := t :: s.tokens }

/-- Puts a token behind the first `before` tokens. -/
def insert (s : Scanner) (before : Nat) (t : Token) : Scanner :=
  { s with tokens := s.tokens.insertIdx (s.tokens.length - before) t }

/-- Notes that a key may start here. At the indentation of a block, one has to. -/
def saveKey (s : Scanner) : Scanner :=
  if s.keyAllowed then
    let isRequired :=
      !s.inFlow && s.indent = s.cursor.column && (s.levels.head?.any (·.isBlock))
    { s with keys := ⟨true, isRequired, s.tokens.length, s.cursor⟩ :: s.keys.tail }
  else s

/-- Forgets the place where a key may have started, unless there has to be one. -/
def dropKey? (s : Scanner) : Option Scanner :=
  match s.keys with
  | [] => some s
  | key :: outer =>
    if key.isPossible && key.isRequired then none
    else some { s with keys := { key with isPossible := false } :: outer }

/-- Whether a key can no longer have started at a place: it ends on its line, and before long. -/
def isStale (c : Cursor) (key : KeyStart) : Bool :=
  key.isPossible &&
    (key.cursor.line < c.line || key.cursor.index + maxKeyLength < c.index)

/-- Forgets the places that are too far away. Inside of brackets keys may be of any length. -/
def dropStaleKeys? (s : Scanner) : Option Scanner :=
  if s.inFlow then some s
  else if s.keys.any fun key => isStale s.cursor key && key.isRequired then none
  else
    some { s with
      keys := s.keys.map fun key =>
        { key with isPossible := key.isPossible && !isStale s.cursor key } }

/-- Closes the levels to the right of `column`. -/
def closeLevels (column : Int) : Int → List Token → List Level → Int × List Token × List Level
  | indent, tokens, [] => (indent, tokens, [])
  | indent, tokens, level :: outer =>
    if column < indent then
      closeLevels column level.outer (if level.isBlock then .blockEnd :: tokens else tokens) outer
    else (indent, tokens, level :: outer)

/-- Closes the blocks to the right of `column`, unless a bracket is open. -/
def closeBlocks (s : Scanner) (column : Int) : Scanner :=
  if s.inFlow then s
  else
    let (indent, tokens, levels) := closeLevels column s.indent s.tokens s.levels
    { s with indent, tokens, levels }

/-- Takes back the innermost level if it is no block. -/
def dropColumn (s : Scanner) : Scanner :=
  match s.levels with
  | level :: levels => if level.isBlock then s else { s with indent := level.outer, levels }
  | [] => s

/-- Opens a block at `column` unless one is open there. Its token stands behind the first `before`
tokens. -/
def openBlock (s : Scanner) (column before : Nat) (t : Token) : Scanner :=
  if s.inFlow then s
  else
    let s := if s.indent ≤ column then s.dropColumn else s
    if s.indent < column then
      { s.insert before t with indent := column, levels := ⟨s.indent, true⟩ :: s.levels }
    else s

/-- Indents by one column, which opens no block. -/
def openColumn (s : Scanner) : Scanner :=
  if !s.inFlow && s.levels.head?.any (·.isBlock) then
    { s with indent := s.indent + 1, levels := ⟨s.indent, false⟩ :: s.levels }
  else s

/-- Ends the pair that is a map of its own in a list. -/
def endPair (s : Scanner) : Scanner :=
  match s.pairs with
  | true :: outer => { s.push .flowMapEnd with mapOpened := false, pairs := false :: outer }
  | _ => s

/-- Moves past `n` characters. -/
def advance (s : Scanner) (n : Nat) : Scanner := { s with cursor := s.cursor.advance n }

/-- Moves past blanks and a comment. -/
def skipGap? (s : Scanner) : Option Scanner :=
  (s.cursor.skipGap? true).map fun (cursor, _) => { s with cursor }

/-- An opening bracket, or the brace of a map. Both may start a key. -/
def openBracket? (s : Scanner) (isMap : Bool) : Option Scanner :=
  let s := s.saveKey.openColumn
  if s.depth = maxDepth then none
  else
    let s := { s with
      depth := s.depth + 1
      keys := noKey s.cursor :: s.keys
      keyAllowed := true
      mapOpened := s.mapOpened || isMap
      pairs := if isMap then s.pairs else false :: s.pairs }
    match (s.advance 1).skipGap? with
    | some s => some (s.push (if isMap then .flowMap else .flowList))
    | none => none

/-- A closing bracket, or the brace of a map. -/
def closeBracket? (s : Scanner) (isMap : Bool) : Option Scanner := do
  let s ← s.dropKey?
  let s := if s.inFlow then { s with depth := s.depth - 1, keys := s.keys.tail } else s
  let s := { s with keyAllowed := false }
  let s := if isMap then s else { s.endPair with pairs := s.pairs.tail }
  let s ← (s.advance 1).skipGap?
  let s := if s.inFlow then { s with adjacentAt := s.cursor.index } else s
  return s.push (if isMap then .flowMapEnd else .flowListEnd)

def comma? (s : Scanner) : Option Scanner := do
  let s ← s.dropKey?
  let s := { s with keyAllowed := true }
  let s ← (s.endPair.advance 1).skipGap?
  return s.push .comma

/-- Whether the last token is a name or a tag at the beginning of a line. -/
def isBehindProperty (s : Scanner) : Bool :=
  match s.tokens with
  | .anchor _ 0 :: _ => true
  | .tag _ _ 0 :: _ => true
  | _ => false

/-- A dash before an entry of a list. -/
def dash? (s : Scanner) : Option Scanner := do
  if s.inFlow || !s.keyAllowed then none
  else if s.cursor.column = 0 && s.isBehindProperty && -1 < s.indent then none
  else
    let column := s.cursor.column
    let s := (s.advance 1).openBlock column s.tokens.length .blockList
    let (cursor, blanks) ← s.cursor.skipGap? true
    if blanks.contains '\t' && cursor.isAt '-' && atGap (cursor.rest.drop 1) then none
    else
      let s := { s with cursor }
      let s := if cursor.rest.head?.any (fun d => d = '\n' || isFlowSign d) then s.openColumn else s
      let s ← s.dropKey?
      return { s with keyAllowed := true }.push .dash

/-- Moves past blanks, comments and line ends behind a question mark. Tabs may not follow. -/
def skipBehindQuestion? (s : Scanner) : Option Scanner :=
  let c := s.cursor
  if !c.rest.head?.any (fun d => d = ' ' || d = '\n') then none
  else
    let (c, hasBreak) := skipLines (c.rest.length + 1) c false
    if c.isAt '\t' then none
    else some { s with cursor := c, keyAllowed := s.keyAllowed || (hasBreak && !s.inFlow) }
where
  skipLines : Nat → Cursor → Bool → Cursor × Bool
    | 0, c, hasBreak => (c, hasBreak)
    | fuel + 1, c, hasBreak =>
      if c.isAt ' ' then skipLines fuel c.next hasBreak
      else if c.isAt '\n' then skipLines fuel c.next true
      else if c.isAt '#' then skipLines fuel c.skipComment hasBreak
      else (c, hasBreak)

/-- A question mark before a key. -/
def question? (s : Scanner) : Option Scanner := do
  if !s.inFlow && !s.keyAllowed then none
  else
    let s := s.openBlock s.cursor.column s.tokens.length .blockMap
    let s := { s with mapOpened := s.mapOpened || s.inFlow }
    let s ← s.dropKey?
    let s := { s with keyAllowed := !s.inFlow }
    let s ← (s.advance 1).skipBehindQuestion?
    return s.push .key

/-- Moves past a colon. Where tabs alone follow it, no word stands behind them. -/
def skipColon? (s : Scanner) : Option Scanner :=
  let c := s.cursor.next
  if c.isAt '\t' then
    match c.skipGap? true with
    | none => none
    | some (cursor, blanks) =>
      if !blanks.contains ' ' && cursor.rest.head?.any isWordChar then none
      else some { s with cursor }
  else some { s with cursor := c }

/-- A colon before a value. If a key may have started before it, it did; otherwise the key is empty
or was announced by a question mark. In a list, a key and its value are a map of their own. -/
def colon? (s : Scanner) : Option Scanner := do
  let place := s.cursor
  let isPair := !s.pairs.isEmpty && !s.mapOpened
  let s := if isPair then { s with pairs := true :: s.pairs.tail } else s
  let s ← s.skipColon?
  match s.keys with
  | [] => none
  | key :: outer =>
    if key.isPossible then
      if isPair && key.cursor.line < place.line then none
      else
        let s := s.insert key.before .key
        let s := if isPair then s.insert key.before .flowMap else s
        let s := (s.openBlock key.cursor.column key.before .blockMap).openColumn
        let s := { s with keys := { key with isPossible := false } :: outer, keyAllowed := false }
        return s.push .value
    else
      let s := if isPair then s.push .flowMap else s
      if !s.inFlow && !s.keyAllowed then none
      else
        let s := (s.openBlock place.column s.tokens.length .blockMap).openColumn
        return { s with keyAllowed := !s.inFlow }.push .value

/-- A plain text. -/
def plainToken? (s : Scanner) : Option Scanner := do
  let s := { s.saveKey.dropColumn with keyAllowed := false }
  if s.inFlow && s.cursor.isLeftOf (s.indent + 1) then none
  else
    let (text, cursor) ← plain? s.inFlow (s.indent + 1) s.cursor
    return { s with cursor, keyAllowed := cursor.isFresh }.push (.plain text)

/-- A quoted text. Behind it a value may follow its colon directly. -/
def quotedToken? (s : Scanner) (quote : Char) : Option Scanner := do
  let s := { s.saveKey with keyAllowed := false }
  let (text, cursor) ← quoted? s.context quote s.cursor
  let (cursor, keyAllowed) ← cursor.toToken? s.context s.keyAllowed
  return { s with cursor, keyAllowed, adjacentAt := cursor.index }.push (.quoted text)

def literalToken? (s : Scanner) (isFolded : Bool) : Option Scanner := do
  let s := { s.saveKey.dropColumn with keyAllowed := true }
  let (text, cursor) ← literal? isFolded s.indent s.cursor
  return { s with cursor }.push (.quoted text)

def anchorToken? (s : Scanner) (isAlias : Bool) : Option Scanner := do
  let s := { s.saveKey with keyAllowed := false }
  let (name, cursor) ← anchorName? s.cursor
  return { s with cursor }.push (if isAlias then .alias name else .anchor name s.cursor.column)

def tagToken? (s : Scanner) : Option Scanner := do
  let s := { s.saveKey with keyAllowed := false }
  let (token, cursor) ← tag? s.inFlow s.cursor
  return { s with cursor }.push token

/-- Closes all blocks, as marks between documents and rules do. -/
def leaveBlocks? (s : Scanner) : Option Scanner :=
  (s.closeBlocks (-1)).dropKey?.map fun s => { s with keyAllowed := false }

def startMark? (s : Scanner) : Option Scanner := do
  let s ← s.leaveBlocks?
  return (s.advance 3).push .documentStart

/-- Behind the end of a document its line is empty. -/
def endMark? (s : Scanner) : Option Scanner := do
  let s ← s.leaveBlocks?
  let cursor ← (s.cursor.advance 3).skipEmptyLine?
  return { s with cursor }.push .documentEnd

def ruleToken? (s : Scanner) : Option Scanner := do
  let s ← s.leaveBlocks?
  let (token, cursor) ← rule? s.cursor
  return { s with cursor }.push token

/-- Reads the token that starts with `c`, which `rest` follows. -/
def token? (s : Scanner) (c : Char) (rest : List Char) : Option Scanner :=
  if s.cursor.column = 0 && c = '%' then s.ruleToken?
  else if s.cursor.column = 0 && atStartMark (c :: rest) then s.startMark?
  else if s.cursor.column = 0 && atEndMark (c :: rest) then s.endMark?
  else if s.cursor.isLeftOf s.indent then none
  else if c = '[' then s.openBracket? false
  else if c = '{' then s.openBracket? true
  else if c = ']' then s.closeBracket? false
  else if c = '}' then s.closeBracket? true
  else if c = ',' then s.comma?
  else if c = '-' && atGap rest then s.dash?
  else if c = '?' && atGap rest then s.question?
  else if c = ':' && (atGap rest ||
      (s.inFlow && (rest.head?.any isFlowSign || s.cursor.index = s.adjacentAt))) then s.colon?
  else if c = '*' then s.anchorToken? true
  else if c = '&' then s.anchorToken? false
  else if c = '!' then s.tagToken?
  else if c = '|' && !s.inFlow then s.literalToken? false
  else if c = '>' && !s.inFlow then s.literalToken? true
  else if c = '\'' || c = '"' then s.quotedToken? c
  else if c = '%' || c = '@' || c = '\x60' then none
  else s.plainToken?

/-- Moves to the next token and closes the blocks that end before it. -/
def settle? (s : Scanner) : Option Scanner := do
  let (cursor, keyAllowed) ← s.cursor.toToken? s.context s.keyAllowed
  let s ← { s with cursor, keyAllowed }.dropStaleKeys?
  return s.closeBlocks cursor.column

/-- Closes what is open at the end of the text. No key may be missing. -/
def finish? (s : Scanner) : Option (List Token) :=
  if s.keys.any fun key => key.isPossible && key.isRequired then none
  else some (s.closeBlocks (-1)).tokens.reverse

/-- Reads all tokens. Every token takes a character at least. -/
def run? : Nat → Scanner → Option (List Token)
  | 0, _ => none
  | fuel + 1, s =>
    match s.settle? with
    | none => none
    | some s =>
      match s.cursor.rest with
      | [] => s.finish?
      | c :: rest =>
        match s.token? c rest with
        | none => none
        | some s => run? fuel s

end Scanner

/-- Cuts a text into tokens. -/
def tokens? (text : String) : Option (List Token) :=
  let cs := normalized text.toList
  (Scanner.start cs).run? (cs.length + 1)

end BlockMarkup.Yaml
