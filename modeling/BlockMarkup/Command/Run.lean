import BlockMarkup.Command.Address
import BlockMarkup.Command.Arguments
import BlockMarkup.Site.Project

/-!
# Running commands

What the commands do with files, and what they write on the console.
-/

namespace BlockMarkup

/-- What a command has written. -/
structure Console where
  output : String
  errors : String
  deriving DecidableEq, Repr

/-- Why a command fails, with what lies behind it. -/
structure CommandError where
  message : String
  causes : List String
  deriving DecidableEq, Repr

namespace CommandError

def ofFault (fault : Fault) : CommandError := ⟨fault.message, []⟩

/-- Puts an indent behind every line end. -/
def indented (indent : List Char) (text : String) : String :=
  String.ofList (text.toList.flatMap fun c => if c = '\n' then '\n' :: indent else [c])

/-- Causes are numbered if there are several. -/
def numbered (n : Nat) : List String → List String
  | [] => []
  | cause :: rest =>
    ("    " ++ toString n ++ ": " ++ indented (List.replicate 7 ' ') cause) :: numbered (n + 1) rest

def causeLines : List String → List String
  | [] => []
  | [cause] => ["", "Caused by:", "    " ++ indented (List.replicate 4 ' ') cause]
  | causes => "" :: "Caused by:" :: numbered 0 causes

def text (e : CommandError) : String :=
  Text.join "\n" (("Error: " ++ e.message) :: causeLines e.causes) ++ "\n"

end CommandError

/-- What is left of a run. -/
structure Outcome where
  exitCode : Nat
  console : Console
  deriving DecidableEq, Repr

/-- Runs of commands over files. -/
abbrev CommandM (m : Type → Type) := ExceptT CommandError (StateT Console m)

namespace Command

variable {m : Type → Type} [Monad m]

def print (line : String) : CommandM m Unit :=
  modify fun c => { c with output := c.output ++ line ++ "\n" }

def warn (line : String) : CommandM m Unit :=
  modify fun c => { c with errors := c.errors ++ line ++ "\n" }

/-- Does something with files. -/
def onFiles {α : Type} (action : m α) : CommandM m α := liftM action

/-- Does something with files that has to succeed. -/
def require {α : Type} (action : m (Except Fault α)) : CommandM m α := do
  match ← onFiles action with
  | .ok a => return a
  | .error fault => throw (.ofFault fault)

variable [FileStore m]

/-- The project with the settings that a command line names, and the file of the settings. -/
def openProject (environment : Environment) (file : Path) : CommandM m Project := do
  match ← onFiles (Settings.load environment (some file)) with
  | .error e => throw ⟨e.message, []⟩
  | .ok (settings, path) => return .ofSettings settings (Settings.baseOf path)

/-- The report of a build that has to succeed. -/
def requireReport (action : m (Except BuildError BuildReport)) : CommandM m BuildReport := do
  match ← onFiles action with
  | .ok report => return report
  | .error e => throw ⟨e.message, e.causes⟩

/-- Writes what there is to say about a draft. -/
def describe (d : Draft) : CommandM m Unit := do
  if let some failure := d.failure then warn failure.message
  d.warnings.forM fun warning => warn (d.relative.text ++ ":" ++ warning.text)

/-- Writes what there is to say about a build. -/
def describeAll (report : BuildReport) : CommandM m Unit := report.drafts.forM describe

/-- A build with failed drafts is an error. -/
def requireSuccess (report : BuildReport) : CommandM m Unit := do
  describeAll report
  if !report.succeeded then
    throw ⟨toString report.failures ++ " of " ++ toString report.drafts.length ++
      " document(s) failed", []⟩

def runBuild (environment : Environment) (inputs : List Path) (output : Option Path)
    (settings : Path) : CommandM m Unit := do
  let project ← openProject environment settings
  let report ← requireReport { project with inputs, output }.build
  requireSuccess report
  print ("Built " ++ toString report.drafts.length ++ " document(s) to " ++ report.outputDir.text ++
    " (" ++ toString report.warnings ++ " warning(s))")

def runCheck (environment : Environment) (inputs : List Path) (settings : Path) :
    CommandM m Unit := do
  let project ← openProject environment settings
  let report ← requireReport { project with inputs }.check
  requireSuccess report
  print ("Checked " ++ toString report.drafts.length ++ " document(s), no errors (" ++
    toString report.warnings ++ " warning(s))")

/-- Removes the directory of the pages. A dry run only says what would be removed. -/
def removeOutput (project : Project) (dryRun : Bool) : CommandM m Unit := do
  let outputDir := project.outputDir
  if ← onFiles (FileStore.exists? outputDir) then
    let outputDir := (← onFiles (FileStore.canonical outputDir)).toOption.getD outputDir
    if dryRun then print ("Would delete " ++ outputDir.text)
    else
      require (FileStore.removeDirectory outputDir)
      print ("Deleted " ++ outputDir.text)
  else print ("Nothing to clean at " ++ outputDir.text)

def runClean (environment : Environment) (settings : Path) (dryRun : Bool) :
    CommandM m Unit := do
  removeOutput (← openProject environment settings) dryRun

/-- The page that a new project begins with. -/
def starterPage : String :=
  "header.site-header\n" ++
  "  h1#title \x7b Welcome to HTMLx \x7d\n" ++
  "  p.lead \x7b Edit src/index.htmlx and run htmlx serve \x7d\n" ++
  "\n" ++
  "main\n" ++
  "  section.card(animate: \"fade 1s ease-in\") \x7b\n" ++
  "    h2 \x7b Hello \x7d\n" ++
  "    p \x7b Signed in as span(⚡-data: \"username\") \x7b guest \x7d \x7d\n" ++
  "  \x7d\n" ++
  "  button.primary(⚡-call: \"refresh\") \x7b Refresh \x7d\n"

/-- Makes the directory of a new project, if that is asked for. -/
def ensureDirectory (path : Path) (create : Bool) : CommandM m Unit := do
  if !(← onFiles (FileStore.exists? path)) then
    if create then
      require (FileStore.makeDirectories path)
      print ("Created directory " ++ path.text)
    else throw ⟨"Directory does not exist: " ++ path.text, []⟩

/-- Writes the starter page unless a page is there. -/
def ensureStarter (path : Path) : CommandM m Unit := do
  let sourceDir := path.join Settings.standard.source
  let starter := sourceDir.join ⟨"index.htmlx"⟩
  if !(← onFiles (FileStore.exists? starter)) then
    require (FileStore.makeDirectories sourceDir)
    require (FileStore.writeText starter starterPage)
    print ("Created starter page " ++ starter.text)

def runInit (path : Path) (create : Bool) : CommandM m Unit := do
  let path ← onFiles (FileStore.absolute path)
  ensureDirectory path create
  let file := path.join ⟨Settings.fileName⟩
  if ← onFiles (FileStore.exists? file) then throw ⟨file.text ++ " already exists", []⟩
  let settings := { Settings.standard with name := path.fileName.getD Settings.standard.name }
  print ("Initializing project in " ++ path.text)
  require (FileStore.writeText file settings.text)
  print ("Created config file " ++ file.text)
  ensureStarter path

/-- Builds a project to be worked on, and makes ready to serve it. No address can be listened on
without a network. -/
def runServe (environment : Environment) (bind : String) (port : Nat) (settings : Path) :
    CommandM m Unit := do
  let project ← openProject environment settings
  print "Building project..."
  let liveReload := project.settings.liveReload
  let report ← requireReport { project with dev := true, liveReload }.build
  describeAll report
  print ("Built " ++ toString report.drafts.length ++ " document(s), " ++
    toString report.failures ++ " failed")
  print "Watching for changes..."
  if !Address.isValid bind then throw ⟨"invalid socket address syntax", []⟩
  let host := if bind = defaultBind then "localhost" else bind
  print ("\nServing " ++ report.outputDir.text ++ " at http://" ++ host ++ ":" ++ toString port)
  print "Press Ctrl+C to stop\n"
  throw (.ofFault .addressNotAvailable)

def run (environment : Environment) : Command → CommandM m Unit
  | init path create => runInit path create
  | build inputs output settings => runBuild environment inputs output settings
  | check inputs settings => runCheck environment inputs settings
  | serve bind port settings => runServe environment bind port settings
  | clean settings dryRun => runClean environment settings dryRun

def version : String := "htmlx 0.1.0\n"

def usage : String :=
  "Usage: htmlx [-v] <init|build|check|serve|clean> [options] [inputs]\n"

/-- What is written instead of running a command. -/
def stopped : Stop → Outcome
  | .help => ⟨0, ⟨usage, ""⟩⟩
  | .version => ⟨0, ⟨version, ""⟩⟩
  | .misuse => ⟨2, ⟨"", usage⟩⟩

/-- Runs a command line. -/
def execute (environment : Environment) (args : List String) : m Outcome := do
  match read args with
  | .error stop => return stopped stop
  | .ok command =>
    match ← ((run environment command).run).run ⟨"", ""⟩ with
    | (.ok (), console) => return ⟨0, console⟩
    | (.error e, console) => return ⟨1, { console with errors := console.errors ++ e.text }⟩

end Command

end BlockMarkup
