import BlockMarkup.Files.Store

/-!
# Sources of a site

The sources below a directory are its files with the extension of the language, without those that
are hidden or lie in a hidden directory. Names with a dot in front are hidden.
-/

namespace BlockMarkup

structure SourceFile where
  path : Path
  /-- The path below the directory that was searched. It decides where the page goes. -/
  relative : Path
  deriving DecidableEq, Repr

namespace SourceFile

def sourceExtension : String := "htmlx"

/-- Whether a path has the extension of a source. -/
def isSource (p : Path) : Bool := p.extension = some sourceExtension

def isHidden (name : String) : Bool := name.toList.head? = some '.'

variable {m : Type → Type} [Monad m] [FileStore m]

/-- The paths of the sources among the entries of a directory and below them. What is hidden is
passed over, directories are searched by `search`, and the first fault ends the walk. -/
def walkEntries (search : Path → m (Except Fault (List Path))) (directory : Path) :
    List (Except Fault DirectoryEntry) → m (Except Fault (List Path))
  | [] => return .ok []
  | .error e :: _ => return .error e
  | .ok entry :: rest => do
    let path := directory.join ⟨entry.name⟩
    if isHidden entry.name then walkEntries search directory rest
    else
      match entry.kind with
      | .error e => return .error e
      | .ok .directory =>
        match ← search path with
        | .error e => return .error e
        | .ok found => return (← walkEntries search directory rest).map (found ++ ·)
      | .ok (.file _) =>
        let found := if isSource path then [path] else []
        return (← walkEntries search directory rest).map (found ++ ·)

/-- The paths of the sources below a directory. Every step down makes the path longer, so `depth`
steps are enough if no longer path is taken by the system. -/
def walk : (depth : Nat) → (directory : Path) → m (Except Fault (List Path))
  | 0, _ => return .error .nameTooLong
  | depth + 1, directory => do
    match ← FileStore.entries directory with
    | .error e => return .error e
    | .ok entries => walkEntries (walk depth) directory entries

/-- The source at a path below a directory. -/
def below? (directory path : Path) : Option SourceFile :=
  (path.below? directory).map (SourceFile.mk path)

/-- The sources that one input stands for: those below a directory in the order of their paths, or a
file whatever it is called. -/
def discoverOne (input : Path) : m (Except Fault (List SourceFile)) := do
  match ← FileStore.kind? input with
  | some .directory =>
    return (← walk (FileStore.maxPath + 1) input).map fun found =>
      (found.mergeSort Path.le).filterMap (below? input)
  | some (.file _) => return .ok [⟨input, (input.fileName.map Path.mk).getD input⟩]
  | none => return .error (.inputNotFound input.text)

/-- The sources that inputs stand for, in their order. -/
def discover : List Path → m (Except Fault (List SourceFile))
  | [] => return .ok []
  | input :: inputs => do
    match ← discoverOne input with
    | .error e => return .error e
    | .ok found => return (← discover inputs).map (found ++ ·)

end SourceFile

namespace Change

end Change

end BlockMarkup
