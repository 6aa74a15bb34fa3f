import Kleene.Service.Command

/-!
# The command line

`--input` and `--output` name the files that are read and written, `--verbosity` (or `-v`) says how
much is printed. What is not given is taken from the settings.
-/

set_option autoImplicit false

namespace Kleene.Main

open Kleene.Command

/-- Reads the options off the arguments, or answers the argument that is none. -/
def readOptions : List String → Options → Except String Options
  | [], options => .ok options
  | "--input" :: path :: rest, options =>
    readOptions rest { options with input := some (.text (Text.ofChars path.toList)) }
  | "--output" :: path :: rest, options =>
    readOptions rest { options with output := some (.text (Text.ofChars path.toList)) }
  | "--verbosity" :: level :: rest, options | "-v" :: level :: rest, options =>
    match level.toInt? with
    | some level => readOptions rest { options with verbosity := .scalar (.int level) }
    | none => .error level
  | argument :: _, _ => .error argument

/-- Whether a code of the operating system, given with either sign, is that of the error. -/
def isCodeOf (error : FileError) (code : UInt32) : Bool :=
  code.toNat == error.number || (0 - code).toNat == error.number

/-- What stopped an access, in the words of the operating system. -/
def describeError (path : String) : IO.Error → String
  | .noFileOrDirectory _ _ _ => FileError.notFound.message path
  | .inappropriateType _ code _ =>
    (if isCodeOf .notDirectory code then FileError.notDirectory
      else FileError.isDirectory).message path
  | error => toString error

/-- Reads the one file, writes the other, and prints the report if it is asked for. -/
def convertFile (options : Options) : ExceptT String IO Unit := do
  let input ← chosen options.input Settings.inputPath
  let bytes ← access "read" input (IO.FS.readBinFile (systemPath input))
  let report ← match reportOfBytes bytes.toList with
    | .ok report => pure report
    | .error failure => throw failure.message
  let output ← chosen options.output Settings.outputPath
  let bytes := ByteArray.mk (Text.encodeUtf8 report).toArray
  access "write" output (IO.FS.writeBinFile (systemPath output) bytes)
  match printed options.verbosity report with
  | .ok text => IO.print text
  | .error error => throw error.message
where
  /-- The path that is chosen. -/
  chosen (given : Option Json) (name : String) : ExceptT String IO String :=
    match chosenFile Settings.site given name with
    | .ok (.named path) => pure path
    | .ok (.opened number) => throw (FileError.notOpen.message (toString number))
    | .error error => throw error.message
  /-- A path as the operating system takes it; halves of pairs have no place in one. -/
  systemPath (path : String) : String :=
    String.ofList ((Text.pointsOf path).filterMap (fun point => match point with
      | .char c => some c
      | .half _ => none))
  /-- Ends with the words for what stopped an access to a file. -/
  access {α : Type} (verb path : String) (action : IO α) : ExceptT String IO α := do
    match ← action.toBaseIO with
    | .ok value => return value
    | .error error => throw s!"Cannot {verb} {path}: {describeError path error}"

end Kleene.Main

/-- Converts a file as the arguments say; the exit code tells whether a report was written. -/
def main (arguments : List String) : IO UInt32 := do
  match Kleene.Main.readOptions arguments {} with
  | .error argument =>
    IO.eprintln s!"unrecognized argument: {argument}"
    return 2
  | .ok options =>
    match ← (Kleene.Main.convertFile options).run with
    | .ok () => return 0
    | .error message =>
      IO.eprintln s!"CommandError: {message}"
      return 1
