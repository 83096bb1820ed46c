/-!
# Tokens

What a text is cut into before it is read as a value: signs, scalars, and the beginnings and ends of
lists and maps, which indentation only implies.
-/

namespace BlockMarkup.Yaml

inductive Token where
  /-- Three dashes, and three dots. -/
  | documentStart
  | documentEnd
  /-- Rules for the documents behind them: the version, and what a tag's handle stands for. -/
  | version
  | handle (name meaning : String)
  /-- Lists and maps that are made of indented lines. -/
  | blockList
  | blockMap
  | blockEnd
  /-- Lists in brackets and maps in braces. -/
  | flowList
  | flowListEnd
  | flowMap
  | flowMapEnd
  /-- What stands before an entry: a dash, or a comma. -/
  | dash
  | comma
  /-- What stands before a key and before its value. -/
  | key
  | value
  /-- Names for the next value and references to one, with the column of the name. -/
  | anchor (name : String) (column : Nat)
  | alias (name : String)
  | tag (handle suffix : String) (column : Nat)
  | plain (text : String)
  | quoted (text : String)
  deriving DecidableEq, Repr

end BlockMarkup.Yaml
