import Kleene.Failure
import Kleene.Json.Basic

/-!
# Settings

The settings have fixed names and defaults; a site may override their values. A name without a
default is unknown, even if it is overridden.
-/

set_option autoImplicit false

namespace Kleene

/-- The values that override the defaults, by name. -/
abbrev Settings := List (String × Json)

namespace Settings

/-- The name of the setting for the file that is read. -/
def inputPath : String := "INPUT_PATH"

/-- The name of the setting for the file that is written. -/
def outputPath : String := "OUTPUT_PATH"

/-- The name of the setting for the largest automaton that is converted on request. -/
def maxStates : String := "MAX_STATES"

/-- All settings with their defaults. -/
def defaults : Settings :=
  [(inputPath, .text "input.txt"), (outputPath, .text "output.txt"), (maxStates, .nat 7)]

/-- The values of this site. -/
def site : Settings :=
  [(inputPath, .text "input.txt"), (outputPath, .text "output.txt"), (maxStates, .nat 7)]

/-- The value of a setting: the overriding one, or else the default. -/
def get {ν : Type} (settings : Settings) (name : String) : Except (Failure ν) Json :=
  match defaults.lookup name with
  | some value => .ok ((settings.lookup name).getD value)
  | none => .error (.unknownSetting (.text name))

/-- The value of the setting that a value names; only a text can name one. -/
def named {ν : Type} (settings : Settings) : Json → Except (Failure ν) Json
  | .scalar (.text name) => settings.get name
  | .scalar name => .error (.unknownSetting name)
  | json => .error (.unhashable json.kind)

end Settings

end Kleene
