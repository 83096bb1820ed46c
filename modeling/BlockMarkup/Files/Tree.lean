import BlockMarkup.Dict

/-!
# File trees

A file tree is a file, or a directory with named entries. Not every file holds bytes that can be
read: links and special files have places in a tree, too. A place in a tree is the list of names
that leads to it.
-/

namespace BlockMarkup

inductive FileType where
  | regular
  /-- A link. Its bytes are the path that it stands for. -/
  | link
  /-- Anything else, such as a socket, that can be found but not opened. -/
  | special
  deriving DecidableEq, Repr

/-- A file: its bytes, and what they are for. -/
structure File extends ByteArray where
  type : FileType

namespace File

instance : Coe File ByteArray := ⟨toByteArray⟩

def regular (contents : ByteArray) : File := ⟨contents, .regular⟩

end File

inductive FileTree where
  | file (file : File)
  | directory (entries : List (String × FileTree))

namespace FileTree

inductive Kind where
  | file (type : FileType)
  | directory
  deriving DecidableEq, Repr

def kind : FileTree → Kind
  | file f => .file f.type
  | directory _ => .directory

def empty : FileTree := .directory []

instance : Inhabited FileTree := ⟨empty⟩

/-- What lies at a place. -/
def find? (tree : FileTree) (place : List String) : Option FileTree :=
  match place, tree with
  | [], t => some t
  | _ :: _, file _ => none
  | name :: names, directory entries =>
    match entries.lookup name with
    | none => none
    | some t => t.find? names

/-- Puts a tree at a place whose directories are there. Otherwise nothing changes. -/
def put (tree : FileTree) (place : List String) (new : FileTree) : FileTree :=
  match place, tree with
  | [], _ => new
  | _ :: _, file f => file f
  | [name], directory entries => directory (Dict.put name new entries)
  | name :: next :: names, directory entries =>
    match entries.lookup name with
    | none => directory entries
    | some t => directory (Dict.put name (t.put (next :: names) new) entries)

/-- Takes away what lies at a place. Of the root only the entries can be taken away. -/
def remove (tree : FileTree) (place : List String) : FileTree :=
  match place, tree with
  | [], _ => empty
  | _ :: _, file f => file f
  | [name], directory entries => directory (entries.filter (·.1 ≠ name))
  | name :: next :: names, directory entries =>
    match entries.lookup name with
    | none => directory entries
    | some t => directory (Dict.put name (t.remove (next :: names)) entries)

end FileTree

end BlockMarkup
