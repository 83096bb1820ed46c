import BlockMarkup.Site.Draft
import BlockMarkup.Site.Outputs
import BlockMarkup.SourceMap.Json

/-!
# Pipelines

A pipeline is a list of named stages that drafts go through, all of them through one stage before
the next. The stages of the library leave failed drafts alone. A stage that cannot go on halts the
run: the drafts before the place where it stopped have gone through it, the others have not.
-/

namespace BlockMarkup

/-- What a run makes pages for. -/
structure Target where
  outputDir : Path
  options : CompileOptions
  /-- Whether pages load themselves again when they change. -/
  liveReload : Bool
  deriving DecidableEq, Repr

/-- Why a run stops. -/
inductive Halt where
  | files (fault : Fault)
  | stage (name message : String)
  deriving DecidableEq, Repr

namespace Halt

def message : Halt → String
  | files fault => "IO error: " ++ fault.message
  | stage name message => "stage '" ++ name ++ "' failed: " ++ message

/-- What lies behind a halt. -/
def causes : Halt → List String
  | files fault => [fault.message]
  | stage _ _ => []

end Halt

/-- Drafts after a stage, with the reason if it stopped. -/
abbrev Progress := List Draft × Option Halt

structure Stage (m : Type → Type) where
  name : String
  process : Target → List Draft → m Progress

namespace Stage

variable {m : Type → Type} [Monad m]

/-- Takes the drafts that have not failed through a step, up to the first halt. -/
def forEach (step : Draft → m (Except Halt Draft)) : List Draft → m Progress
  | [] => return ([], none)
  | d :: rest => do
    if d.hasFailed then
      let (rest, halt) ← forEach step rest
      return (d :: rest, halt)
    else
      match ← step d with
      | .error halt => return (d :: rest, some halt)
      | .ok d =>
        let (rest, halt) ← forEach step rest
        return (d :: rest, halt)

/-- Runs a step on the tree of a draft. -/
def onTree (stage : String) (d : Draft) (step : Document → Draft) : Except Halt Draft :=
  match d.document with
  | some document => .ok (step document)
  | none =>
    .error (.stage stage
      ("document '" ++ d.name ++ "' has no tree (was the parse stage run?)"))

def parse : Stage m :=
  ⟨"parse", fun _ => forEach fun d => return .ok d.parse⟩

def normalize : Stage m :=
  ⟨"normalize", fun _ => forEach fun d => return onTree "normalize" d d.nest⟩

def validate : Stage m :=
  ⟨"validate", fun target => forEach fun d =>
    return onTree "validate" d (d.validate · target.options)⟩

def emit : Stage m :=
  ⟨"emit", fun target => forEach fun d => return onTree "emit" d (d.emit · target.options)⟩

variable [FileStore m]

/-- The files that are written for a bundle. -/
def files (target : Target) (relative : Path) (bundle : Bundle) : List (Path × String) :=
  let outputs := Outputs.ofSource relative target.outputDir
  let html := if target.liveReload then Page.injectLiveReload bundle.html else bundle.html
  [(outputs.html, html), (outputs.sourceMap, bundle.sourceMap.toJson),
    (outputs.css, bundle.css), (outputs.js, bundle.js)]

/-- Makes the directory that a file is to stand in. -/
def makeParent (p : Path) : m (Except Fault Unit) :=
  match p.parent with
  | none => return .ok ()
  | some parent => FileStore.makeDirectories parent

/-- Writes the files of a bundle. -/
def writeBundle (target : Target) (relative : Path) (bundle : Bundle) :
    m (Except Fault Unit) := do
  match ← makeParent (Outputs.ofSource relative target.outputDir).html with
  | .error e => return .error e
  | .ok () => Outputs.writeAll (files target relative bundle)

def write : Stage m :=
  ⟨"write", fun target => forEach fun d => do
    match d.bundle with
    | none =>
      return .error (.stage "write"
        ("document '" ++ d.name ++ "' has no output (was the emit stage run?)"))
    | some bundle =>
      match ← writeBundle target d.relative bundle with
      | .error e => return .error (.files e)
      | .ok () => return .ok d⟩

end Stage

abbrev Pipeline (m : Type → Type) := List (Stage m)

namespace Pipeline

variable {m : Type → Type} [Monad m]

/-- Reads and validates, and makes nothing. -/
def checking : Pipeline m := [.parse, .normalize, .validate]

/-- Makes pages and writes them. -/
def standard [FileStore m] : Pipeline m := checking ++ [.emit, .write]

def unknownStage (name : String) : Halt := .stage name "stage not found in pipeline"

/-- Puts a stage before the first one that is called `name`. -/
def insertBefore (name : String) (stage : Stage m) : Pipeline m → Except Halt (Pipeline m)
  | [] => .error (unknownStage name)
  | s :: rest =>
    if s.name = name then .ok (stage :: s :: rest)
    else (insertBefore name stage rest).map (s :: ·)

/-- Puts a stage behind the first one that is called `name`. -/
def insertAfter (name : String) (stage : Stage m) : Pipeline m → Except Halt (Pipeline m)
  | [] => .error (unknownStage name)
  | s :: rest =>
    if s.name = name then .ok (s :: stage :: rest)
    else (insertAfter name stage rest).map (s :: ·)

/-- Takes drafts through the stages, up to the first halt. -/
def run (target : Target) : Pipeline m → List Draft → m Progress
  | [], drafts => return (drafts, none)
  | s :: rest, drafts => do
    match ← s.process target drafts with
    | (drafts, some halt) => return (drafts, some halt)
    | (drafts, none) => run target rest drafts

end Pipeline

end BlockMarkup
