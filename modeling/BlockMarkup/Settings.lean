import BlockMarkup.Bundle
import BlockMarkup.Settings.Environment
import BlockMarkup.Settings.File
import BlockMarkup.Yaml.Writer

/-!
# Settings

What a project can set. The settings of the file are laid under those of the environment, and every
setting that is in neither has a default. A section may also be given as a list of its settings in
order.
-/

namespace BlockMarkup

structure Settings where
  /-- The name of the project. -/
  name : String
  /-- The directory of the sources, seen from the settings file. -/
  source : Path
  /-- The directory of the pages, seen from the settings file. -/
  output : Path
  animationThreshold : Nat
  apiBase : String
  /-- Whether changes are looked for at intervals, in milliseconds. -/
  poll : Bool
  pollInterval : Nat
  /-- The time in milliseconds in which changes count as one. -/
  debounce : Nat
  liveReload : Bool
  deriving DecidableEq, Repr

/-- Why there are no settings. -/
inductive SettingsError where
  | unreadable
  | sameDirectory (path : Path)
  | emptyApiBase
  deriving DecidableEq, Repr

def SettingsError.message : SettingsError → String
  | unreadable => "failed to deserialize config"
  | sameDirectory path =>
    "invalid config: build.source and build.output are both '" ++ path.text ++ "'"
  | emptyApiBase => "invalid config: compiler.api_base must not be empty"

namespace Settings

def standard : Settings :=
  { name := "My HTMLx Project"
    source := ⟨"src"⟩
    output := ⟨"dist"⟩
    animationThreshold := CompileOptions.standard.animationThreshold
    apiBase := CompileOptions.standard.apiBase
    poll := false
    pollInterval := 500
    debounce := 100
    liveReload := true }

def compileOptions (s : Settings) : CompileOptions := ⟨s.animationThreshold, s.apiBase⟩

/-- A setting of a section: by its key in a table, by its place in a list. Other sections have no
settings at all. -/
def member? (section? : Option Value) (place : Nat) (key : String) : Option (Option Value) :=
  match section? with
  | none => some none
  | some (.table entries) => some (entries.lookup key)
  | some (.list values) => some values[place]?
  | some _ => none

/-- Reads a setting, or takes its default. -/
def setting? {α : Type} (section? : Option Value) (place : Nat) (key : String)
    (read : Value → Option α) (default : α) : Option α :=
  match member? section? place key with
  | none => none
  | some none => some default
  | some (some value) => read value

/-- Reads settings from a table. -/
def ofValue? (value : Value) : Option Settings := do
  let project := value.entries.lookup "project"
  let build := value.entries.lookup "build"
  let compiler := value.entries.lookup "compiler"
  let dev := value.entries.lookup "dev"
  let watch ← member? dev 0 "watch"
  let path (v : Value) : Option Path := v.asText?.map Path.mk
  return {
    name := ← setting? project 0 "name" Value.asText? standard.name
    source := ← setting? build 0 "source" path standard.source
    output := ← setting? build 1 "output" path standard.output
    animationThreshold :=
      ← setting? compiler 0 "animation_threshold" Value.asNat? standard.animationThreshold
    apiBase := ← setting? compiler 1 "api_base" Value.asText? standard.apiBase
    poll := ← setting? watch 0 "poll" Value.asBool? standard.poll
    pollInterval := ← setting? watch 1 "poll_interval_ms" Value.asNat? standard.pollInterval
    debounce := ← setting? watch 2 "debounce_ms" Value.asNat? standard.debounce
    liveReload := ← setting? dev 1 "live_reload" Value.asBool? standard.liveReload }

/-- Sources and pages lie in different directories, and endpoints stand behind something. -/
def check (s : Settings) : Except SettingsError Settings :=
  if s.source.same s.output then .error (.sameDirectory s.source)
  else if Text.isAllBlank s.apiBase then .error .emptyApiBase
  else .ok s

/-- The settings that a file and an environment give. -/
def ofLayers (file : Option (List (String × Value))) (environment : Environment) :
    Except SettingsError Settings :=
  match file with
  | none => .error .unreadable
  | some file =>
    match ofValue? (Value.layer (ofEnvironment environment) (Value.layer file (.table []))) with
    | none => .error .unreadable
    | some settings => settings.check

/-- The name of the settings file of a project. -/
def fileName : String := "htmlx.yaml"

def boolText (b : Bool) : String := if b then "true" else "false"

/-- The text of a settings file, with every setting. -/
def text (s : Settings) : String :=
  "project:\n" ++
  "  name: " ++ Yaml.written s.name ++
  "build:\n" ++
  "  source: " ++ Yaml.written s.source.text ++
  "  output: " ++ Yaml.written s.output.text ++
  "compiler:\n" ++
  "  animation_threshold: " ++ toString s.animationThreshold ++ "\n" ++
  "  api_base: " ++ Yaml.written s.apiBase ++
  "dev:\n" ++
  "  watch:\n" ++
  "    poll: " ++ boolText s.poll ++ "\n" ++
  "    poll_interval_ms: " ++ toString s.pollInterval ++ "\n" ++
  "    debounce_ms: " ++ toString s.debounce ++ "\n" ++
  "  live_reload: " ++ boolText s.liveReload ++ "\n"

variable {m : Type → Type} [Monad m] [FileStore m]

/-- Loads the settings of a project, with the path of their file. -/
def load (environment : Environment) (file? : Option Path) :
    m (Except SettingsError (Settings × Path)) := do
  let path ← FileStore.absolute (file?.getD ⟨fileName⟩)
  return (ofLayers (← ofFile path) environment).map (·, path)

/-- The directory that settings are seen from. -/
def baseOf (file : Path) : Path := file.parent.getD ⟨"."⟩

end Settings

end BlockMarkup
