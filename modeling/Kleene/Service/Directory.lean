import Kleene.Name
import Kleene.Text.Encoding
import Kleene.Text.Quoted

/-!
# A directory of files

A `Directory` holds the bytes of files and knows which directories there are, each by its way from
the root of the system: the names to go through. The directory itself lies at `Directory.home`,
among the directories that every system has. `Directory.read` and `Directory.write` follow a path as
it is written and report what stops them by the number and the words of the operating system.

Some of this is assumed of the system: which directories it has at its root (`systemFolders`), where
among them the directory lies (`home`), that there are no links and no rights, and that of the files
that are devices only the sink is there.
-/

set_option autoImplicit false

namespace Kleene

/-- The names to go through from the root. -/
abbrev Way := List String

/-- Files and directories by their ways. -/
structure Directory where
  files : List (Way × List UInt8) := []
  folders : List Way := []
  deriving Repr, DecidableEq

/-- What stops an access to a file. -/
inductive FileError where
  | notFound
  | notDirectory
  | isDirectory
  | nameTooLong
  /-- A number that no open file has. -/
  | notOpen
  deriving Repr, DecidableEq

namespace FileError

/-- The number of the error. -/
def number : FileError → Nat
  | notFound => 2
  | notOpen => 9
  | notDirectory => 20
  | isDirectory => 21
  | nameTooLong => 36

/-- The words for the error. -/
def words : FileError → String
  | notFound => "No such file or directory"
  | notOpen => "Bad file descriptor"
  | notDirectory => "Not a directory"
  | isDirectory => "Is a directory"
  | nameTooLong => "File name too long"

/-- The sentence that states the error at a path; a file that was to be open already has none. -/
def message (e : FileError) (path : String) : String :=
  let place := match e with
    | notOpen => ""
    | _ => s!": {Text.quote path}"
  s!"[Errno {e.number}] {e.words}{place}"

end FileError

namespace Directory

/-- The way of the directory itself, which is assumed to lie among the temporary ones. Its own name
is not known, so no path gives it. -/
def home : Way :=
  ["tmp", ""]

/-- The directory with files and directories in it, given by their ways from it. -/
def ofEntries (files : List (Way × List UInt8)) (folders : List Way) : Directory where
  files := files.map (fun file => (home ++ file.1, file.2))
  folders := folders.map (fun folder => home ++ folder)

/-- The names of the directories at the root of the system. They are an assumption: the usual
ones. -/
def systemFolders : List String :=
  ["bin", "boot", "dev", "etc", "home", "lib", "media", "mnt", "opt", "proc", "root", "run", "sbin",
    "srv", "sys", "tmp", "usr", "var"]

/-- The file that has no bytes and takes any. It is the only device that is assumed to be there: a
path to any other is that of a file that can be made. -/
def sink : Way :=
  ["dev", "null"]

/-- Whether a way leads to a directory. -/
def isFolder (d : Directory) (way : Way) : Bool :=
  way.isPrefixOf home || systemFolders.any (fun name => way == [name]) || d.folders.contains way

/-- The bytes of the file at a way. -/
def bytesAt (d : Directory) (way : Way) : Option (List UInt8) :=
  if way == sink then some [] else d.files.lookup way

/-- The most bytes that one name may have. -/
def maxNameLength : Nat := 255

/-- The most bytes that a path may have. -/
def maxPathLength : Nat := 4095

/-- The way to a name from a way, which must lead to a directory. -/
def step (d : Directory) (way : Way) (name : String) : Except FileError Way :=
  if !d.isFolder way then .error (if (d.bytesAt way).isSome then .notDirectory else .notFound)
  else if name == "" || name == "." then .ok way
  else if name == ".." then .ok way.dropLast
  else if (Text.encodeUtf8 name).length > maxNameLength then .error .nameTooLong
  else .ok (way ++ [name])

/-- The way that a path starts from and the names on it, without the empty ones at its end. -/
def start (path : String) : Except FileError (Way × List String) :=
  if path == "" then .error .notFound
  else if (Text.encodeUtf8 path).length > maxPathLength then .error .nameTooLong
  else
    .ok (if path.startsWith "/" then [] else home,
      ((path.splitOn "/").reverse.dropWhile (fun name => name == "")).reverse)

/-- The bytes of the file at a path. -/
def read (d : Directory) (path : String) : Except FileError (List UInt8) := do
  let (origin, names) ← start path
  let way ← names.foldlM d.step origin
  if d.isFolder way then throw .isDirectory
  else match d.bytesAt way with
    | some bytes => if path.endsWith "/" then throw .notDirectory else return bytes
    | none => throw .notFound

/-- The directory with a file put at a way, in place of the one that was there. -/
def put (d : Directory) (way : Way) (bytes : List UInt8) : Directory :=
  if way == sink then d
  else { d with files := d.files.filter (fun file => file.1 != way) ++ [(way, bytes)] }

/-- The directory with a file put at a path. A path with a slash at its end is that of a directory,
whatever its last name is. -/
def write (d : Directory) (path : String) (bytes : List UInt8) : Except FileError Directory := do
  let (origin, names) ← start path
  let parent ← names.dropLast.foldlM d.step origin
  let last := names.getLast?.getD ""
  if path.endsWith "/" then
    -- what is not a directory has no names in it, not even this one
    let _ ← d.step parent ""
    throw .isDirectory
  else
    let way ← d.step parent last
    if d.isFolder way then throw .isDirectory else return d.put way bytes

/-- The plain files in the directory itself, by name. -/
def topFiles (d : Directory) : List (String × List UInt8) :=
  d.files.filterMap (fun file =>
    if file.1.dropLast == home then file.1.getLast?.map (fun name => (name, file.2)) else none)

end Directory

end Kleene
