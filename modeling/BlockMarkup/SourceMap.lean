import BlockMarkup.Position

/-!
# Source maps

A source map links places in a generated page to places in the source it was made from.
-/

namespace BlockMarkup

inductive MappingKind where
  | element
  | text
  deriving DecidableEq, Repr

structure Mapping where
  generated : Position
  origin : Position
  kind : MappingKind
  /-- The tag, for elements. -/
  name : Option String
  deriving DecidableEq, Repr

structure SourceMap where
  version : Nat
  /-- The generated file. -/
  file : String
  /-- The source file. -/
  source : String
  /-- One entry for each element and text that is shown, in the order of the page. -/
  mappings : List Mapping
  deriving DecidableEq, Repr

namespace SourceMap

/-- The version of the format that is written. -/
def formatVersion : Nat := 1

/-- The source place of the first node that starts on a generated line. -/
def originOfLine (m : SourceMap) (line : Nat) : Option Position :=
  (m.mappings.find? (·.generated.line = line)).map (·.origin)

/-- The source place of the last node that starts at or before `place` on its line. -/
def originAt (m : SourceMap) (place : Position) : Option Position :=
  (m.mappings.reverse.find? fun mapping =>
    mapping.generated.line = place.line && mapping.generated.column ≤ place.column).map
      (·.origin)

end SourceMap

end BlockMarkup
