import BlockMarkup.Command.Run

/-!
# The command line

Runs commands on the files of the machine.
-/

namespace BlockMarkup.Main

def faultOf : IO.Error → Fault
  | .noFileOrDirectory _ _ _ => .notFound
  | .alreadyExists _ _ _ => .alreadyExists
  | .inappropriateType _ code _ =>
    if code = 20 then .notADirectory else if code = 21 then .isADirectory else .invalidArgument
  | .invalidArgument _ code _ => if code = 36 then .nameTooLong else .invalidArgument
  | .resourceBusy _ _ => .busy
  | e => .other (toString e)

/-- Does something with files and tells what went wrong, if anything. -/
def attempt {α : Type} (action : IO α) : IO (Except Fault α) := do
  match ← action.toBaseIO with
  | .ok a => return .ok a
  | .error e => return .error (faultOf e)

def kindOf (found : IO.FS.Metadata) : FileTree.Kind :=
  match found.type with
  | .dir => .directory
  | .file => .file .regular
  | .symlink => .file .link
  | .other => .file .special

def kindAt? (p : Path) : IO (Option FileTree.Kind) := do
  return (← attempt ((← IO.currentDir) / p.text).metadata).toOption.map kindOf

/-- The entries of a directory, each with its own kind. -/
def entriesOf (p : Path) : IO (List (Except Fault DirectoryEntry)) := do
  let found ← ((← IO.currentDir) / p.text).readDir
  found.toList.mapM fun entry => do
    return .ok ⟨entry.fileName, (← attempt entry.path.symlinkMetadata).map kindOf⟩

instance : FileStore IO where
  workingDirectory := do return ⟨(← IO.currentDir).toString⟩
  kind? := kindAt?
  entries p := attempt (entriesOf p)
  read p := attempt (IO.FS.readBinFile p.text)
  write p contents := attempt (IO.FS.writeBinFile p.text contents)
  rename source target := attempt (IO.FS.rename source.text target.text)
  removeFile p := attempt (IO.FS.removeFile p.text)
  removeDirectory p := attempt (IO.FS.removeDirAll p.text)
  makeDirectory p := attempt (IO.FS.createDir p.text)
  canonical p := do return (← attempt (IO.FS.realPath p.text)).map fun found => ⟨found.toString⟩

/-- The variables that give settings. -/
def environment : IO (Environment) :=
  Settings.variableNames.filterMapM fun name => do
    return (← IO.getEnv name).map (name, ·)

end BlockMarkup.Main

def main (args : List String) : IO UInt32 := do
  let outcome ← BlockMarkup.Command.execute (← BlockMarkup.Main.environment) args
  IO.print outcome.console.output
  IO.eprint outcome.console.errors
  return outcome.exitCode.toUInt32
