import BlockMarkup.Files.Store

/-!
# Disks

A disk is a file tree together with a working directory. Paths are followed name by name: everything
but the last name has to be a directory, a `..` leads back, and a slash at the end asks for a
directory. The links of a disk lead nowhere: whoever follows one finds nothing, but it can be
listed, renamed, replaced and removed.
-/

namespace BlockMarkup

structure Disk where
  root : FileTree
  /-- The place of the working directory. -/
  workingPlace : List String

namespace Disk

/-- The longest name, in bytes. -/
def maxName : Nat := 255

def at? (d : Disk) (place : List String) : Option FileTree := d.root.find? place

/-- The names of a path, `.` and `..` included. -/
def names (p : Path) : List String := (p.pieces.filter (!·.isEmpty)).map String.ofList

/-- Whether a path asks for a directory by a slash at its end. -/
def endsInSlash (p : Path) : Bool := p.text.toList.getLast? = some '/'

/-- Follows names from a place. Every name needs a directory to stand in, so a place that is reached
is a place of the tree or lies directly in one of its directories. -/
def follow (d : Disk) (place : List String) : List String → Except Fault (List String)
  | [] => .ok place
  | name :: rest =>
    match d.at? place with
    | none => .error .notFound
    | some (.file f) => .error (if f.type = .link then .notFound else .notADirectory)
    | some (.directory _) =>
      if name = "." then follow d place rest
      else if name = ".." then follow d place.dropLast rest
      else if maxName < name.utf8ByteSize then .error .nameTooLong
      else follow d (place ++ [name]) rest

/-- The place that a path leads to, whether something lies there or not. -/
def place (d : Disk) (p : Path) : Except Fault (List String) :=
  if p.text.toList.contains '\x00' then .error .nulInPath
  else if p.text.isEmpty then .error .notFound
  else if FileStore.maxPath < p.text.utf8ByteSize then .error .nameTooLong
  else d.follow (if p.isAbsolute then [] else d.workingPlace) (names p)

/-- What lies where a path leads, with its place. Only a link that is not to be followed counts. -/
def reach (d : Disk) (followed : Bool) (p : Path) : Except Fault (List String × FileTree) :=
  match d.place p with
  | .error e => .error e
  | .ok place =>
    match d.at? place with
    | none => .error .notFound
    | some (.file f) =>
      if followed && f.type = .link then .error .notFound
      else if endsInSlash p then .error .notADirectory
      else .ok (place, .file f)
    | some tree => .ok (place, tree)

/-- What is found at a path, with its place. -/
def open? (d : Disk) (p : Path) : Except Fault (List String × FileTree) := d.reach true p

/-- What a path names, be it a link, with its place. -/
def named? (d : Disk) (p : Path) : Except Fault (List String × FileTree) := d.reach false p

def read (d : Disk) (p : Path) : Except Fault ByteArray :=
  match d.open? p with
  | .error e => .error e
  | .ok (_, .file f) => if f.type = .regular then .ok f else .error .noDevice
  | .ok (_, .directory _) => .error .isADirectory

/-- The entries of a directory. -/
def entries (d : Disk) (p : Path) : Except Fault (List DirectoryEntry) :=
  match d.open? p with
  | .error e => .error e
  | .ok (_, .file _) => .error .notADirectory
  | .ok (_, .directory entries) => .ok (entries.map fun (name, tree) => ⟨name, .ok tree.kind⟩)

/-- Runs a change of the tree that may fail, in which case nothing changes. -/
def change (d : Disk) : Except Fault FileTree → Except Fault Unit × Disk
  | .error e => (.error e, d)
  | .ok root => (.ok (), { d with root })

/-- The tree after writing a file. -/
def written (d : Disk) (p : Path) (contents : ByteArray) : Except Fault FileTree :=
  match d.place p with
  | .error e => .error e
  | .ok place =>
    if endsInSlash p then .error .isADirectory
    else
      match d.at? place with
      | some (.directory _) => .error .isADirectory
      | some (.file ⟨_, .link⟩) => .error .notFound
      | some (.file ⟨_, .special⟩) => .error .noDevice
      | _ => .ok (d.root.put place (.file (.regular contents)))

/-- The tree after making a directory. -/
def withDirectory (d : Disk) (p : Path) : Except Fault FileTree :=
  match d.place p with
  | .error e => .error e
  | .ok place =>
    match d.at? place with
    | some _ => .error .alreadyExists
    | none => .ok (d.root.put place .empty)

/-- The tree after renaming a file or a directory. -/
def renamed (d : Disk) (source target : Path) : Except Fault FileTree :=
  match d.named? source with
  | .error e => .error e
  | .ok (origin, tree) =>
    match d.place target with
    | .error e => .error e
    | .ok goal =>
      match tree, d.at? goal with
      | .file _, some (.directory _) => .error .isADirectory
      | .directory _, some (.file _) => .error .notADirectory
      | .directory _, some (.directory (_ :: _)) =>
        if origin = goal then .ok d.root else .error .notEmpty
      | .directory _, _ =>
        if origin = goal then .ok d.root
        else if origin.isPrefixOf goal then .error .invalidArgument
        else .ok ((d.root.remove origin).put goal tree)
      | .file _, _ =>
        if origin = goal then .ok d.root
        else if endsInSlash target then .error .notADirectory
        else .ok ((d.root.remove origin).put goal tree)

/-- The tree after removing a file. -/
def withoutFile (d : Disk) (p : Path) : Except Fault FileTree :=
  match d.named? p with
  | .error e => .error e
  | .ok (_, .directory _) => .error .isADirectory
  | .ok (place, .file _) => .ok (d.root.remove place)

/-- Removes a directory with everything in it, or a link. The root is emptied, but it stays, which
is a fault. -/
def removeDirectory (d : Disk) (p : Path) : Except Fault Unit × Disk :=
  match d.named? p with
  | .error e => (.error e, d)
  | .ok (place, .file f) =>
    if f.type = .link then (.ok (), { d with root := d.root.remove place })
    else (.error .notADirectory, d)
  | .ok (place, .directory _) =>
    (if place = [] then .error .busy else .ok (), { d with root := d.root.remove place })

/-- The path of a place. -/
def pathOf (place : List String) : Path := ⟨"/" ++ Text.join "/" place⟩

end Disk

/-- Programs that run on a disk. -/
abbrev DiskM := StateM Disk

instance : FileStore DiskM where
  workingDirectory := do return Disk.pathOf (← get).workingPlace
  kind? p := do return ((← get).open? p).toOption.map (·.2.kind)
  entries p := do return ((← get).entries p).map (·.map .ok)
  read p := do return (← get).read p
  write p contents := modifyGet fun d => d.change (d.written p contents)
  rename source target := modifyGet fun d => d.change (d.renamed source target)
  removeFile p := modifyGet fun d => d.change (d.withoutFile p)
  removeDirectory p := modifyGet fun d => d.removeDirectory p
  makeDirectory p := modifyGet fun d => d.change (d.withDirectory p)
  canonical p := do return ((← get).open? p).map fun (place, _) => Disk.pathOf place

end BlockMarkup
