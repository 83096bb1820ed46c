import BlockMarkup.Files.Store
import BlockMarkup.Settings.Value
import BlockMarkup.Text.Lossy
import BlockMarkup.Yaml.Tree

/-!
# Settings from a file

A settings file holds a map. An empty file gives no settings, and neither does a missing one.
-/

namespace BlockMarkup

mutual

/-- The setting value that stands in a file, unless a key or a number is none. -/
def Yaml.value? : Yaml → Option Value
  | .scalar .null => some .null
  | .scalar (.bool b) => some (.bool b)
  | .scalar (.int n) => some (.int n)
  | .scalar (.real written) => (Number.float? written.toList).map .real
  | .scalar (.text s) => some (.text s)
  | .list values => (Yaml.values? values).map .list
  | .map entries => (Yaml.table? entries []).map .table

def Yaml.values? : List Yaml → Option (List Value)
  | [] => some []
  | value :: rest =>
    match value.value?, Yaml.values? rest with
    | some value, some rest => some (value :: rest)
    | _, _ => none

def Yaml.table? (entries : List (Yaml.Scalar × Yaml)) (table : List (String × Value)) :
    Option (List (String × Value)) :=
  match entries with
  | [] => some table
  | (key, value) :: rest =>
    match key.key?, value.value? with
    | some key, some value => Yaml.table? rest (Dict.put key value table)
    | _, _ => none

end

namespace Settings

/-- The bytes that may stand in front of a text to mark it as one. -/
def byteOrderMark : List UInt8 := [0xEF, 0xBB, 0xBF]

/-- The text of a settings file. -/
def fileText (contents : ByteArray) : String :=
  Text.lossy (if byteOrderMark.isPrefixOf contents.toList
    then contents.extract byteOrderMark.length contents.size else contents)

/-- The settings that the text of a file gives. -/
def ofText? (text : String) : Option (List (String × Value)) :=
  match Yaml.read? text with
  | none => none
  | some none => some []
  | some (some document) =>
    match document.value? with
    | some (.table entries) => some entries
    | _ => none

variable {m : Type → Type} [Monad m] [FileStore m]

/-- The first of some paths that a file lies at. -/
def firstFile? : List Path → m (Option Path)
  | [] => return none
  | p :: rest => do
    if ← FileStore.isFile p then return some p else firstFile? rest

/-- The paths that a settings file is looked for at: the path itself, and the same name with the
extensions of the format behind it. -/
def candidates (p : Path) : List Path := [p, p.withSuffix ".yaml", p.withSuffix ".yml"]

/-- The settings that a file gives, if they can be read. -/
def ofFile (p : Path) : m (Option (List (String × Value))) := do
  match ← firstFile? (candidates p) with
  | none => return some []
  | some p =>
    match ← FileStore.read p with
    | .error _ => return none
    | .ok contents => return ofText? (fileText contents)

end Settings

end BlockMarkup
