import BlockMarkup.Settings
import BlockMarkup.Site.Pipeline
import BlockMarkup.Site.Sources

/-!
# Building a project

Every source goes through the pipeline on its own, so that a source that cannot be compiled keeps no
other from being built. The drafts are reported in the order of the sources. An error that is not
one of a source ends the build; of several, the one of the first source counts.
-/

namespace BlockMarkup

structure Project where
  settings : Settings
  /-- The directory that the paths of the settings are seen from. -/
  base : Path
  /-- Files and directories to build instead of the source directory. -/
  inputs : List Path
  /-- A directory for the pages instead of that of the settings. -/
  output : Option Path
  /-- Whether pages are built to be worked on. -/
  dev : Bool
  liveReload : Bool

/-- Why a build ends. -/
inductive BuildError where
  | files (fault : Fault)
  | source (path : Path) (fault : Fault)
  | pipeline (halt : Halt)
  deriving DecidableEq, Repr

namespace BuildError

def message : BuildError → String
  | files fault => "IO error: " ++ fault.message
  | source path fault => "failed to read " ++ path.text ++ ": " ++ fault.message
  | pipeline halt => "pipeline error: " ++ halt.message

/-- What lies behind an error, one thing behind the other. -/
def causes : BuildError → List String
  | files fault => [fault.message]
  | source _ fault => [fault.message]
  | pipeline halt => halt.message :: halt.causes

end BuildError

/-- What a build has done. -/
structure BuildReport where
  outputDir : Path
  drafts : List Draft

namespace BuildReport

def failures (r : BuildReport) : Nat := (r.drafts.filter (·.hasFailed)).length

def warnings (r : BuildReport) : Nat := (r.drafts.flatMap (·.warnings)).length

def succeeded (r : BuildReport) : Bool := r.failures = 0

end BuildReport

namespace Project

def ofSettings (settings : Settings) (base : Path) : Project :=
  { settings, base, inputs := [], output := none, dev := false, liveReload := false }

/-- A path of the settings, seen from the base. -/
def resolve (base p : Path) : Path := if p.isAbsolute then p else base.join p

def outputDir (p : Project) : Path := resolve p.base (p.output.getD p.settings.output)

def sourceDir (p : Project) : Path := resolve p.base p.settings.source

def target (p : Project) : Target :=
  { outputDir := p.outputDir
    options := p.settings.compileOptions
    liveReload := p.dev && p.liveReload }

variable {m : Type → Type} [Monad m] [FileStore m]

/-- The sources of a project. -/
def sources (p : Project) : m (Except Fault (List SourceFile)) :=
  SourceFile.discover (if p.inputs.isEmpty then [p.sourceDir] else p.inputs)

/-- Takes one source through a pipeline. -/
def process (target : Target) (pipeline : Pipeline m) (source : SourceFile) :
    m (Except BuildError (List Draft)) := do
  match ← FileStore.readText source.path with
  | .error e => return .error (.source source.path e)
  | .ok text =>
    match ← pipeline.run target [Draft.ofSource source.path source.relative text] with
    | (_, some halt) => return .error (.pipeline halt)
    | (drafts, none) => return .ok drafts

/-- Takes sources through a pipeline, all of them. -/
def processAll (target : Target) (pipeline : Pipeline m) :
    List SourceFile → m (Except BuildError (List Draft))
  | [] => return .ok []
  | source :: rest => do
    let drafts ← process target pipeline source
    let more ← processAll target pipeline rest
    match drafts, more with
    | .error e, _ => return .error e
    | .ok _, .error e => return .error e
    | .ok drafts, .ok more => return .ok (drafts ++ more)

/-- Takes the sources of a project through a pipeline. -/
def run (p : Project) (pipeline : Pipeline m) : m (Except BuildError BuildReport) := do
  match ← p.sources with
  | .error e => return .error (.files e)
  | .ok sources =>
    return (← processAll p.target pipeline sources).map fun drafts => ⟨p.outputDir, drafts⟩

/-- Reads and validates every source. -/
def check (p : Project) : m (Except BuildError BuildReport) := p.run .checking

/-- Builds every source. -/
def build (p : Project) : m (Except BuildError BuildReport) := do
  match ← FileStore.makeDirectories p.outputDir with
  | .error e => return .error (.files e)
  | .ok () => p.run .standard

end Project

end BlockMarkup
