import BlockMarkup.Json.Reader
import BlockMarkup.SourceMap

/-!
# Source maps as JSON

A source map is written as an object with its fields in order. In reading, fields may come in any
order and other fields are passed over, but no field may come twice, and only the name of a mapping
may be missing. The fields may also be given as an array in their order.
-/

namespace BlockMarkup

/-- The largest numbers that a version and a position may have. -/
def maxVersion : Nat := Nat.pow 2 32 - 1

def maxPlace : Nat := Nat.pow 2 64 - 1

namespace Position

def toJson (p : Position) : Json :=
  .object [(some "line", .natural p.line), (some "column", .natural p.column)]

end Position

namespace MappingKind

def name : MappingKind → String
  | element => "element"
  | text => "text"

end MappingKind

namespace Mapping

def toJson (m : Mapping) : Json :=
  .object <|
    [(some "generated", m.generated.toJson),
      (some "original", m.origin.toJson),
      (some "kind", .text m.kind.name)] ++
    (match m.name with
      | some name => [(some "name", .text name)]
      | none => [])

end Mapping

namespace SourceMap

def toValue (m : SourceMap) : Json :=
  .object
    [(some "version", .natural m.version),
      (some "file", .text m.file),
      (some "source", .text m.source),
      (some "mappings", .array (m.mappings.map Mapping.toJson))]

/-- A source map as a text. -/
def toJson (m : SourceMap) : String := m.toValue.pretty 0

end SourceMap

namespace Json

/-- The values of the named fields, `none` where one is missing. It fails if a field comes twice or
if a name has no text. An array gives its elements to the fields in order and may not have more. -/
def fields (names : List String) : Json → Option (List (Option Json))
  | .array elements =>
    if elements.length ≤ names.length then
      some (elements.map some ++ List.replicate (names.length - elements.length) none)
    else none
  | .object members =>
    if members.all (·.1.isSome) then
      names.mapM fun name =>
        match members.filter (·.1 = some name) with
        | [] => some none
        | [member] => some (some member.2)
        | _ => none
    else none
  | _ => none

/-- A natural number up to `limit`. -/
def natural? (limit : Nat) : Json → Option Nat
  | .natural n => if n ≤ limit then some n else none
  | _ => none

/-- A string that has a text. -/
def text? : Json → Option String
  | .string value => value
  | _ => none

end Json

namespace Position

def ofJson (j : Json) : Option Position :=
  match j.fields ["line", "column"] with
  | some [some line, some column] => do
    let line ← line.natural? maxPlace
    let column ← column.natural? maxPlace
    some ⟨line, column⟩
  | _ => none

end Position

namespace MappingKind

def ofName : String → Option MappingKind
  | "element" => some element
  | "text" => some text
  | _ => none

/-- A kind is given by its name, or by an object with that name and no value. -/
def ofJson : Json → Option MappingKind
  | .string (some name) => ofName name
  | .object [(some name, .null)] => ofName name
  | _ => none

end MappingKind

namespace Mapping

/-- The name of a mapping, which may be missing. -/
def nameOf : Option Json → Option (Option String)
  | none => some none
  | some .null => some none
  | some j => j.text?.map some

def ofJson (j : Json) : Option Mapping :=
  match j.fields ["generated", "original", "kind", "name"] with
  | some [some generated, some origin, some kind, name] => do
    let generated ← Position.ofJson generated
    let origin ← Position.ofJson origin
    let kind ← MappingKind.ofJson kind
    let name ← nameOf name
    some ⟨generated, origin, kind, name⟩
  | _ => none

end Mapping

namespace SourceMap

def ofValue (j : Json) : Option SourceMap :=
  match j.fields ["version", "file", "source", "mappings"] with
  | some [some version, some file, some source, some (.array mappings)] => do
    let version ← version.natural? maxVersion
    let file ← file.text?
    let source ← source.text?
    let mappings ← mappings.mapM Mapping.ofJson
    some ⟨version, file, source, mappings⟩
  | _ => none

/-- Reads a source map from a text. -/
def ofJson (s : String) : Option SourceMap := (Json.read s).bind ofValue

end SourceMap

end BlockMarkup
