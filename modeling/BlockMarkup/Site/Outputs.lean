import BlockMarkup.Files.Store

/-!
# Outputs of a source

The four files that are written for a source. All of them are written or none: each is first written
beside its place and then moved there.
-/

namespace BlockMarkup

structure Outputs where
  html : Path
  sourceMap : Path
  css : Path
  js : Path
  deriving DecidableEq, Repr

namespace Outputs

/-- The places below `outputDir` for the source at `relative`. -/
def ofSource (relative outputDir : Path) : Outputs :=
  let base := outputDir.join relative.withoutExtension
  { html := base.append ".html"
    sourceMap := base.append ".html.map"
    css := base.append ".css"
    js := base.append ".js" }

/-- Where a file is written before it is moved to its place. -/
def temporary (p : Path) : Path := p.append ".tmp"

variable {m : Type → Type} [Monad m] [FileStore m]

/-- Removes files as far as possible. -/
def removeAll : List Path → m Unit
  | [] => return ()
  | p :: rest => do
    let _ ← FileStore.removeFile p
    removeAll rest

/-- Writes the temporaries of `files`. A fault removes those that were written, `staged`
included. -/
def stageAll (staged : List Path) : List (Path × String) → m (Except Fault Unit)
  | [] => return .ok ()
  | (p, contents) :: rest => do
    match ← FileStore.writeText (temporary p) contents with
    | .error e =>
      removeAll staged
      return .error e
    | .ok () => stageAll (staged ++ [temporary p]) rest

/-- Moves temporaries to their places. A fault removes what was moved, `moved` included, and the
temporaries that are left. -/
def moveAll (moved : List Path) : List Path → m (Except Fault Unit)
  | [] => return .ok ()
  | p :: rest => do
    match ← FileStore.rename (temporary p) p with
    | .error e =>
      removeAll moved
      removeAll ((p :: rest).map temporary)
      return .error e
    | .ok () => moveAll (moved ++ [p]) rest

/-- Writes all files or none. -/
def writeAll (files : List (Path × String)) : m (Except Fault Unit) := do
  match ← stageAll [] files with
  | .error e => return .error e
  | .ok () => moveAll [] (files.map (·.1))

end Outputs

end BlockMarkup
