import BlockMarkup.Dict
import BlockMarkup.Text.Blank

/-!
# Style declarations

The value of a style attribute is a list of declarations `property: value` separated by semicolons.
It is read into a dictionary from properties to values, and written back on one line for a start
tag.
-/

namespace BlockMarkup

/-- Properties and their values in order of first declaration. -/
abbrev Style := Dict String

namespace Style

/-- Reads one declaration: both sides lose the white space around them, and the property may not be
empty. -/
def declaration? (cs : List Char) : Option (String × String) :=
  match Text.splitFirst ':' cs with
  | none => none
  | some (property, value) =>
    let property := Text.dropBlank property
    if property.isEmpty then none
    else some (String.ofList property, String.ofList (Text.dropBlank value))

/-- Adds the declarations of `pieces` to `style`; the error is the first piece that is not one. -/
def readPieces (style : Style) : List (List Char) → Except String Style
  | [] => .ok style
  | piece :: pieces =>
    let piece := Text.dropBlank piece
    if piece.isEmpty then readPieces style pieces
    else
      match declaration? piece with
      | none => .error (String.ofList piece)
      | some (property, value) => readPieces (style.insert property value) pieces

/-- Reads a declaration list. Empty declarations are skipped, and a property that is declared again
keeps its place and takes the later value. The error is the declaration that cannot be read. -/
def read (value : String) : Except String Style :=
  readPieces Dict.empty (Text.splitAt (· = ';') value.toList)

/-- The declarations on one line, as they stand in a start tag. -/
def inline (style : Style) : String :=
  style.entries.foldr (fun (property, value) rest => property ++ ":" ++ value ++ ";" ++ rest) ""

end Style

end BlockMarkup
