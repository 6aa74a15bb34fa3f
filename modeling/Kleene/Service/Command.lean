import Kleene.Service.Directory
import Kleene.Service.Report
import Kleene.Service.Settings
import Kleene.Text.Encoding
import Kleene.Text.Lines

/-!
# The conversion of files

The command reads a description from one file and writes the report on it to another. What it does
is a function of the settings, the options and the directory that it works in; `Command.run` gives
the directory afterwards, what is printed, and the error that ended it, if any.
-/

set_option autoImplicit false

namespace Kleene.Command

/-- The options as given; a path that is not given is taken from the settings. -/
structure Options where
  input : Option Json := none
  output : Option Json := none
  /-- How much is printed; the usual level is one. -/
  verbosity : Json := .nat 1
  deriving Repr

/-- Why the command ends without a report. -/
inductive CommandError where
  | cannotRead (path : String) (error : FileError)
  | cannotWrite (path : String) (error : FileError)
  /-- A path that is no text. -/
  | notPath (kind : String)
  /-- A path with halves of pairs. -/
  | notEncodable (error : Text.EncodeError)
  /-- A path with the character that ends texts in the operating system. -/
  | nullInPath
  /-- A negative number in place of an open file. -/
  | negativeNumber
  /-- A level that is no number. -/
  | notLevel (kind : String)
  | failed (failure : Failure String)
  deriving Repr, DecidableEq

/-- The sentence that states the error. -/
def CommandError.message : CommandError → String
  | .cannotRead path error => s!"Cannot read {path}: {error.message path}"
  | .cannotWrite path error => s!"Cannot write {path}: {error.message path}"
  | .notPath kind => s!"expected str, bytes or os.PathLike object, not {kind}"
  | .notEncodable error => error.message
  | .nullInPath => "embedded null byte"
  | .negativeNumber => "negative file descriptor"
  | .notLevel kind => s!"'>' not supported between instances of '{kind}' and 'int'"
  | .failed failure => failure.message

/-- What the command leaves behind. -/
structure Result where
  directory : Directory
  printed : String := ""
  error : Option CommandError := none
  deriving Repr, DecidableEq

/-- The report on the bytes of a file. Line ends of all kinds are read as line feeds; bytes that are
no text are reported like a description that does not fit its form. -/
def reportOfBytes (bytes : List UInt8) : Except (Failure String) String :=
  match Text.Encoding.decodeUtf8 bytes with
  | .ok points => convertDescription
      (String.ofList (Text.unifyLineEnds (points.flatMap Text.Point.spell)))
  | .error _ => reportOf (.error (.malformed .notUtf8))

/-- What a file is given by. -/
inductive FileReference where
  /-- The path of a file. -/
  | named (path : String)
  /-- The number of a file that is open already. -/
  | opened (number : Nat)
  deriving Repr, DecidableEq

/-- What stands for a file in a message. -/
def FileReference.display : FileReference → String
  | .named path => path
  | .opened number => toString number

/-- The numbers that an open file can have are below this one, and not below its negative. -/
def numberLimit : Nat := 0x80000000

/-- The file that a number stands for. -/
def numbered (value : Int) : Except CommandError FileReference :=
  if value < -numberLimit || numberLimit ≤ value then .error (.notPath "int")
  else if value < 0 then .error .negativeNumber
  else .ok (.opened value.toNat)

/-- The file at a path, which the operating system takes as bytes up to a zero. Halves that stand
for single bytes are written as these. -/
def named (path : String) : Except CommandError FileReference := do
  (Text.checkHalves Text.isLoneByte (Text.pointsOf path)).mapError CommandError.notEncodable
  if path.toList.contains '\x00' then throw .nullInPath else return .named path

/-- The file that a value stands for. -/
def referenceOf : Json → Except CommandError FileReference
  | .scalar (.text path) => named path
  | .scalar (.int value) => numbered value
  | other => .error (.notPath other.kind)

/-- The file that an option gives, or else the setting for it. -/
def chosenFile (settings : Settings) (given : Option Json) (name : String) :
    Except CommandError FileReference := do
  match given with
  | some value => referenceOf value
  | none => referenceOf (← (settings.get name).mapError CommandError.failed)

/-- The bytes of a file. It is assumed that no file is open already when the command starts, so that
no number stands for one. -/
def bytesOf (directory : Directory) : FileReference → Except FileError (List UInt8)
  | .named path => directory.read path
  | .opened _ => .error .notOpen

/-- The directory after bytes are written to a file, which is assumed not to be open already. -/
def writeTo (directory : Directory) (bytes : List UInt8) :
    FileReference → Except FileError Directory
  | .named path => directory.write path bytes
  | .opened _ => .error .notOpen

/-- Whether more than the usual is to be printed. -/
def isVerbose : Json → Except CommandError Bool
  | .scalar (.int level) => .ok (level > 1)
  | .scalar (.bool _) => .ok false
  | .scalar (.real level) => .ok (level.isAbove 1)
  | other => .error (.notLevel other.kind)

/-- What is printed of a report: all of it, with a line feed at its end, if asked for more than the
usual. -/
def printed (verbosity : Json) (report : String) : Except CommandError String := do
  if ← isVerbose verbosity then
    return if report.endsWith "\n" then report else report ++ "\n"
  else return ""

/-- The report on the file that is read. -/
def readReport (settings : Settings) (options : Options) (directory : Directory) :
    Except CommandError String := do
  let input ← chosenFile settings options.input Settings.inputPath
  let bytes ← (bytesOf directory input).mapError (CommandError.cannotRead input.display)
  (reportOfBytes bytes).mapError CommandError.failed

/-- The directory with the report in the file that is written. -/
def writeReport (settings : Settings) (options : Options) (directory : Directory)
    (report : String) : Except CommandError Directory := do
  let output ← chosenFile settings options.output Settings.outputPath
  (writeTo directory (Text.encodeUtf8 report) output).mapError
    (CommandError.cannotWrite output.display)

/-- Runs the command in a directory. -/
def run (settings : Settings) (options : Options) (directory : Directory) : Result :=
  match readReport settings options directory with
  | .error error => { directory, error := some error }
  | .ok report =>
    match writeReport settings options directory report with
    | .error error => { directory, error := some error }
    | .ok written => match printed options.verbosity report with
      | .error error => { directory := written, error := some error }
      | .ok text => { directory := written, printed := text }

end Kleene.Command
