import BlockMarkup.Files.Fault
import BlockMarkup.Files.Tree
import BlockMarkup.Path

/-!
# File stores

The operations on files that a site is built with. What they do is up to the store: the library runs
on the disk of `BlockMarkup.Files.Disk`, the command line on that of the machine.
-/

namespace BlockMarkup

/-- An entry of a directory. The system may be unable to say what it is. -/
structure DirectoryEntry where
  name : String
  kind : Except Fault FileTree.Kind

/-- Operations on files in the monad `m`. -/
class FileStore (m : Type → Type) where
  /-- The directory that relative paths start from. -/
  workingDirectory : m Path
  /-- What lies at a path, if anything. Links are followed. -/
  kind? : Path → m (Option FileTree.Kind)
  /-- The entries of a directory, as far as they can be listed. Links among them are not
  followed. -/
  entries : Path → m (Except Fault (List (Except Fault DirectoryEntry)))
  read : Path → m (Except Fault ByteArray)
  write : Path → ByteArray → m (Except Fault Unit)
  rename : Path → Path → m (Except Fault Unit)
  removeFile : Path → m (Except Fault Unit)
  /-- Removes a directory with everything in it, or a link. -/
  removeDirectory : Path → m (Except Fault Unit)
  /-- Makes a directory in a directory that is there. -/
  makeDirectory : Path → m (Except Fault Unit)
  /-- The absolute path without detours of what lies at a path. -/
  canonical : Path → m (Except Fault Path)

namespace FileStore

/-- The longest path that the system takes, in bytes. -/
def maxPath : Nat := 4095

variable {m : Type → Type} [Monad m] [FileStore m]

def isDirectory (p : Path) : m Bool := do
  return (← kind? p) = some .directory

def isFile (p : Path) : m Bool := do
  return (← kind? p) = some (.file .regular)

def exists? (p : Path) : m Bool := do
  return (← kind? p).isSome

/-- Answers `.ok` where a directory is in place, and `answer` otherwise. -/
def unlessDirectory (p : Path) (answer : Except Fault Unit) : m (Except Fault Unit) := do
  if ← isDirectory p then return .ok () else return answer

/-- Makes a directory and the directories above it. The number of directories above is at most
`above`. -/
def makeDirectoriesUpTo : Nat → Path → m (Except Fault Unit)
  | above, p => do
    if p.text.isEmpty then return .ok ()
    match ← makeDirectory p with
    | .ok () => return .ok ()
    | .error .notFound =>
      match above, p.parent with
      | above + 1, some parent =>
        match ← makeDirectoriesUpTo above parent with
        | .error e => return .error e
        | .ok () =>
          match ← makeDirectory p with
          | .ok () => return .ok ()
          | .error e => unlessDirectory p (.error e)
      | _, _ => return .error (.other "failed to create whole tree")
    | .error e => unlessDirectory p (.error e)

/-- Makes a directory and the directories above it, as far as they are missing. -/
def makeDirectories (p : Path) : m (Except Fault Unit) :=
  makeDirectoriesUpTo p.pieces.length p

/-- The path seen from the working directory. -/
def absolute (p : Path) : m Path := do
  if p.isAbsolute then return p else return (← workingDirectory).join p

/-- Reads a file that holds a text. -/
def readText (p : Path) : m (Except Fault String) := do
  match ← read p with
  | .error e => return .error e
  | .ok bytes =>
    match String.fromUTF8? bytes with
    | some text => return .ok text
    | none => return .error .invalidText

/-- Writes a text into a file. -/
def writeText (p : Path) (text : String) : m (Except Fault Unit) := write p text.toUTF8

end FileStore

end BlockMarkup
