import BlockMarkup.Settings.Value

/-!
# Settings from the environment

A variable whose name starts with `HTMLX_`, in either case, gives the setting whose path is the rest
of the name in lower case, with two underscores between keys.
-/

namespace BlockMarkup

/-- Variables with their texts. -/
abbrev Environment := List (String × String)

namespace Settings

def variableStart : List Char := "htmlx_".toList

/-- Puts a dot in the place of every pair of underscores. -/
def dotted : List Char → List Char
  | '_' :: '_' :: cs => '.' :: dotted cs
  | c :: cs => c :: dotted cs
  | [] => []

/-- The key that a variable gives a value to. -/
def variableKey? (name : String) : Option String :=
  let name := (lowercased name).toList
  if variableStart.isPrefixOf name then
    some (String.ofList (dotted (name.drop variableStart.length)))
  else none

/-- The value that the text of a variable stands for. -/
def variableValue (text : String) : Value :=
  let word := lowercased text
  if word = "true" then .bool true
  else if word = "false" then .bool false
  else
    match Number.signed? 64 10 text.toList with
    | some n => .int n
    | none =>
      match Number.float? text.toList with
      | some x => .real x
      | none => .text text

/-- The settings that an environment gives. -/
def ofEnvironment (environment : Environment) : List (String × Value) :=
  environment.filterMap fun (name, text) =>
    (variableKey? name).map fun key => (key, variableValue text)

/-- The names of the variables that give known settings and sections. -/
def variableNames : List String :=
  ["PROJECT", "PROJECT__NAME", "BUILD", "BUILD__SOURCE", "BUILD__OUTPUT", "COMPILER",
    "COMPILER__ANIMATION_THRESHOLD", "COMPILER__API_BASE", "DEV", "DEV__LIVE_RELOAD", "DEV__WATCH",
    "DEV__WATCH__POLL", "DEV__WATCH__POLL_INTERVAL_MS", "DEV__WATCH__DEBOUNCE_MS"].map
      ("HTMLX_" ++ ·)

end Settings

end BlockMarkup
