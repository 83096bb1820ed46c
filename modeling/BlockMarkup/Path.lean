import BlockMarkup.Text.Blank

/-!
# Paths

A path is a text whose components are separated by slashes. Two paths are the same if their
components are: repeated slashes, a slash at the end and inner `.` components do not count, while a
leading `.` and every `..` do. Operations that return a path keep the text of the components as it
was written.
-/

namespace BlockMarkup

structure Path where
  text : String
  deriving DecidableEq, Repr

namespace Path

inductive Component where
  | root
  | current
  | parent
  | name (name : String)
  deriving DecidableEq, Repr

/-- What stands between the slashes. -/
def pieces (p : Path) : List (List Char) := Text.splitAt (· = '/') p.text.toList

def ofPieces (pieces : List (List Char)) : Path :=
  ⟨Text.join "/" (pieces.map String.ofList)⟩

def isAbsolute (p : Path) : Bool := p.text.toList.head? = some '/'

/-- A piece that names nothing when something stands before it. -/
def isIdle (piece : List Char) : Bool := piece.isEmpty || piece = ['.']

/-- The component that a piece stands for, unless it names nothing. -/
def component? (piece : List Char) : Option Component :=
  if isIdle piece then none
  else if piece = ['.', '.'] then some .parent
  else some (.name (String.ofList piece))

/-- The components of a path. The first piece is the root if it is empty and more follow, and the
current directory if it is a `.`. -/
def components (p : Path) : List Component :=
  match p.pieces with
  | [] => []
  | first :: rest =>
    let start : List Component :=
      if first.isEmpty then (if rest.isEmpty then [] else [.root])
      else if first = ['.'] then [.current]
      else (component? first).toList
    start ++ rest.filterMap component?

/-- Whether two paths have the same components. -/
def same (p q : Path) : Bool := p.components = q.components

/-- The path `q` seen from `p`: an absolute `q` replaces `p`, any other is put behind a slash. -/
def join (p q : Path) : Path :=
  if q.isAbsolute then q
  else if p.text.isEmpty || p.text.toList.getLast? = some '/' then ⟨p.text ++ q.text⟩
  else ⟨p.text ++ "/" ++ q.text⟩

/-- Puts a text directly behind a path. -/
def append (p : Path) (suffix : String) : Path := ⟨p.text ++ suffix⟩

/-- The last component, if it is a name. -/
def fileName (p : Path) : Option String :=
  match p.components.getLast? with
  | some (.name name) => some name
  | _ => none

/-- Cuts a file name at its last dot. A name without a dot, or with none but one in front, is not
cut. -/
def cutName (name : List Char) : List Char × Option (List Char) :=
  match Text.splitFirst '.' name.reverse with
  | none => (name, none)
  | some (after, before) =>
    if before.isEmpty then (name, none) else (before.reverse, some after.reverse)

/-- The file name up to its last dot. -/
def stem (p : Path) : Option String :=
  p.fileName.map fun name => String.ofList (cutName name.toList).1

/-- The file name from behind its last dot on. -/
def extension (p : Path) : Option String :=
  p.fileName.bind fun name => (cutName name.toList).2.map String.ofList

/-- The path without the extension of its file name, and without what stands behind that. A path
that has no file name stays as it is. -/
def withoutExtension (p : Path) : Path :=
  match p.pieces.reverse.dropWhile isIdle with
  | [] => p
  | last :: before =>
    if last = ['.', '.'] then p else ofPieces (before.reverse ++ [(cutName last).1])

/-- The path with a text directly behind its file name, and without what stands behind that. A path
that has no file name stays as it is. -/
def withSuffix (p : Path) (suffix : String) : Path :=
  match p.pieces.reverse.dropWhile isIdle with
  | [] => p
  | last :: before =>
    if last = ['.', '.'] then p
    else ofPieces (before.reverse ++ [last ++ suffix.toList])

/-- The pieces in reverse order without those at the end that name nothing. The first piece stays if
it is the root or the current directory. -/
def trimIdle : List (List Char) → List (List Char)
  | [] => []
  | [first] => [first]
  | last :: before => if isIdle last then trimIdle before else last :: before

/-- The path of the directory that holds the last component; the root and the empty path have
none. -/
def parent (p : Path) : Option Path :=
  match trimIdle p.pieces.reverse with
  | [] => none
  | [only] => if only.isEmpty then none else some ⟨""⟩
  | _ :: before =>
    match trimIdle before with
    | [first] => some (if first.isEmpty then ⟨"/"⟩ else ofPieces [first])
    | trimmed => some (ofPieces trimmed.reverse)

/-- What is left of `whole` behind `start`, if it begins with it. -/
def dropComponents : (start whole : List Component) → Option (List Component)
  | [], whole => some whole
  | _ :: _, [] => none
  | c :: start, d :: whole => if c = d then dropComponents start whole else none

def Component.text : Component → String
  | root => "/"
  | current => "."
  | parent => ".."
  | name text => text

/-- The path below a directory, if it begins with the components of that. -/
def below? (p directory : Path) : Option Path :=
  (dropComponents directory.components p.components).map fun rest =>
    ⟨Text.join "/" (rest.map Component.text)⟩

/-- The place of a kind of component among the others. -/
def Component.rank : Component → Nat
  | root => 0
  | current => 1
  | parent => 2
  | name _ => 3

/-- Names are ordered by their characters, and come behind everything else. -/
def Component.lt : Component → Component → Bool
  | name a, name b => a < b
  | c, d => c.rank < d.rank

/-- Lists of components are ordered by the first that differ. A list comes before those that it
begins. -/
def componentsLe : List Component → List Component → Bool
  | [], _ => true
  | _ :: _, [] => false
  | c :: cs, d :: ds => if c = d then componentsLe cs ds else c.lt d

/-- Paths are ordered by their components. -/
def le (p q : Path) : Bool := componentsLe p.components q.components

end Path

end BlockMarkup
