import BlockMarkup.Number.Integer
import BlockMarkup.Path
import BlockMarkup.Text.Blank

/-!
# Command lines

A command line names a command, its switches and its inputs. Switches have a long name behind two
dashes and a letter behind one; letters may be written together. A value stands behind its switch,
in the same argument or in the next. Two dashes alone end the switches.
-/

namespace BlockMarkup

inductive Command where
  | init (path : Path) (create : Bool)
  | build (inputs : List Path) (output : Option Path) (settings : Path)
  | check (inputs : List Path) (settings : Path)
  | serve (bind : String) (port : Nat) (settings : Path)
  | clean (settings : Path) (dryRun : Bool)
  deriving DecidableEq, Repr

namespace Command

/-- Why a command line names no command to run. -/
inductive Stop where
  | help
  | version
  | misuse
  deriving DecidableEq, Repr

/-- What a switch takes. -/
inductive ValueKind where
  | nothing
  | path
  | text
  | port
  deriving DecidableEq, Repr

structure Switch where
  letter : Char
  name : String
  kind : ValueKind
  deriving DecidableEq, Repr

/-- The names of commands. -/
inductive Verb where
  | init
  | build
  | check
  | serve
  | clean
  deriving DecidableEq, Repr

namespace Verb

def all : List (String × Verb) :=
  [("init", init), ("build", build), ("check", check), ("serve", serve), ("clean", clean)]

def settingsSwitch : Switch := ⟨'c', "config-file", .path⟩

def switches : Verb → List Switch
  | init => [⟨'c', "create", .nothing⟩]
  | build => [⟨'o', "output", .path⟩, settingsSwitch]
  | check => [settingsSwitch]
  | serve =>
    [⟨'b', "bind", .text⟩, ⟨'p', "port", .port⟩, ⟨'o', "open", .nothing⟩, settingsSwitch,
      ⟨'w', "watch", .nothing⟩]
  | clean => [settingsSwitch, ⟨'d', "dry-run", .nothing⟩]

/-- How many inputs a command takes, if there is a limit. -/
def maxInputs : Verb → Option Nat
  | init => some 1
  | build => none
  | check => none
  | serve => some 0
  | clean => some 0

end Verb

/-- What has been read of a command line. -/
structure Given where
  /-- The names of the switches with their values. -/
  switches : List (String × String)
  inputs : List String
  deriving DecidableEq, Repr

namespace Given

def value? (g : Given) (name : String) : Option String := g.switches.lookup name

def has (g : Given) (name : String) : Bool := (g.value? name).isSome

end Given

/-- The port that a text gives. -/
def port? (value : String) : Option Nat :=
  match Number.signed? 64 10 value.toList with
  | some n => if 0 ≤ n ∧ n < 65536 then some n.toNat else none
  | none => none

def accepts : ValueKind → String → Bool
  | .nothing, _ => true
  | .path, value => !value.isEmpty
  | .text, _ => true
  | .port, value => (port? value).isSome

/-- Takes note of a switch. It may be given once, and its value has to be of its kind. -/
def give (given : Given) (switch : Switch) (value : String) : Except Stop Given :=
  if given.has switch.name || !accepts switch.kind value then .error .misuse
  else .ok { given with switches := given.switches ++ [(switch.name, value)] }

/-- Takes note of an input. -/
def giveInput (verb : Verb) (given : Given) (input : String) : Except Stop Given :=
  if input.isEmpty || verb.maxInputs.any (· ≤ given.inputs.length) then .error .misuse
  else .ok { given with inputs := given.inputs ++ [input] }

/-- Whether an argument holds switches. -/
def isSwitch (arg : List Char) : Bool := arg.head? = some '-' && arg.length ≠ 1

/-- What has been read, and the switch whose value is to come. -/
abbrev Reading := Given × Option Switch

/-- Reads letters of switches. -/
def readLetters (verb : Verb) (given : Given) : List Char → Except Stop Reading
  | [] => .ok (given, none)
  | c :: cs =>
    if c = 'v' then readLetters verb given cs
    else if c = 'h' then .error .help
    else
      match verb.switches.find? (·.letter = c) with
      | none => .error .misuse
      | some switch =>
        if switch.kind = .nothing then
          match give given switch "" with
          | .error stop => .error stop
          | .ok given => readLetters verb given cs
        else
          match cs with
          | [] => .ok (given, some switch)
          | '=' :: value => (give given switch (String.ofList value)).map (·, none)
          | value => (give given switch (String.ofList value)).map (·, none)

/-- Reads the long name of a switch, with its value if there is one behind an equals sign. -/
def readName (verb : Verb) (given : Given) (name : List Char) : Except Stop Reading :=
  let (name, value?) :=
    match Text.splitFirst '=' name with
    | some (name, value) => (String.ofList name, some (String.ofList value))
    | none => (String.ofList name, none)
  if name = "verbose" ∨ name = "help" then
    if value?.isSome then .error .misuse
    else if name = "help" then .error .help
    else .ok (given, none)
  else
    match verb.switches.find? (·.name = name), value? with
    | none, _ => .error .misuse
    | some switch, none =>
      if switch.kind = .nothing then (give given switch "").map (·, none)
      else .ok (given, some switch)
    | some switch, some value =>
      if switch.kind = .nothing then .error .misuse else (give given switch value).map (·, none)

/-- Reads an argument that is no value. -/
def readArgument (verb : Verb) (given : Given) (arg : String) : Except Stop Reading :=
  match arg.toList with
  | '-' :: '-' :: name => readName verb given name
  | '-' :: c :: letters => readLetters verb given (c :: letters)
  | _ => (giveInput verb given arg).map (·, none)

/-- Reads inputs only. -/
def readInputs (verb : Verb) (given : Given) : List String → Except Stop Given
  | [] => .ok given
  | arg :: args =>
    match giveInput verb given arg with
    | .error stop => .error stop
    | .ok given => readInputs verb given args

/-- Reads the arguments of a command. A switch that takes a value needs one that is no switch. -/
def readArguments (verb : Verb) (given : Given) (pending : Option Switch) :
    List String → Except Stop Given
  | [] => if pending.isSome then .error .misuse else .ok given
  | arg :: args =>
    match pending with
    | some switch =>
      if isSwitch arg.toList then .error .misuse
      else
        match give given switch arg with
        | .error stop => .error stop
        | .ok given => readArguments verb given none args
    | none =>
      if arg = "--" then readInputs verb given args
      else
        match readArgument verb given arg with
        | .error stop => .error stop
        | .ok (given, pending) => readArguments verb given pending args

def defaultSettings : String := "htmlx.yaml"

def defaultBind : String := "0.0.0.0"

def defaultPort : Nat := 3000

/-- The command that has been read. -/
def ofGiven (verb : Verb) (given : Given) : Except Stop Command :=
  let inputs := given.inputs.map Path.mk
  let settings : Path := ⟨(given.value? "config-file").getD defaultSettings⟩
  match verb with
  | .init =>
    match inputs with
    | path :: _ => .ok (.init path (given.has "create"))
    | [] => .error .misuse
  | .build => .ok (.build inputs ((given.value? "output").map Path.mk) settings)
  | .check => .ok (.check inputs settings)
  | .serve =>
    let port := ((given.value? "port").bind port?).getD defaultPort
    .ok (.serve ((given.value? "bind").getD defaultBind) port settings)
  | .clean => .ok (.clean settings (given.has "dry-run"))

/-- Whether arguments behind `help` name a command or nothing. -/
def isHelpTopic : List String → Bool
  | [] => true
  | [name] => name = "help" || (Verb.all.lookup name).isSome
  | _ => false

/-- Reads letters before the name of a command. -/
def leadingLetters : List Char → Except Stop Unit
  | [] => .ok ()
  | c :: cs =>
    if c = 'v' then leadingLetters cs
    else if c = 'V' then .error .version
    else if c = 'h' then .error .help
    else .error .misuse

/-- Reads a switch before the name of a command. -/
def leadingSwitch (arg : List Char) : Except Stop Unit :=
  match arg with
  | '-' :: '-' :: name =>
    if name = "verbose".toList then .ok ()
    else if name = "version".toList then .error .version
    else if name = "help".toList then .error .help
    else .error .misuse
  | _ :: letters => leadingLetters letters
  | [] => .error .misuse

/-- Reads a command line. -/
def read : List String → Except Stop Command
  | [] => .error .misuse
  | arg :: args =>
    if isSwitch arg.toList then
      match leadingSwitch arg.toList with
      | .error stop => .error stop
      | .ok () => read args
    else if arg = "help" then .error (if isHelpTopic args then .help else .misuse)
    else
      match Verb.all.lookup arg with
      | none => .error .misuse
      | some verb =>
        match readArguments verb ⟨[], []⟩ none args with
        | .error stop => .error stop
        | .ok given => ofGiven verb given

end Command

end BlockMarkup
