import PackagePlan.Ordered.Map

/-! # Files

The files that a command reads, by their paths. A tree of files answers a path
as a file system does: the path is followed one name after the other, from the
root or from the working directory, and the first step that cannot be made
gives the reason why nothing is read.
-/

namespace PackagePlan.Command

abbrev Files := String → Except String String

namespace Files

def systemReason (text : String) (number : Nat) : String :=
  text ++ " (os error " ++ toString number ++ ")"

def missing : String := systemReason "No such file or directory" 2

def forbidden : String := systemReason "Permission denied" 13

def notDirectory : String := systemReason "Not a directory" 20

def isDirectory : String := systemReason "Is a directory" 21

def nameTooLong : String := systemReason "File name too long" 36

def tooManyLinks : String := systemReason "Too many levels of symbolic links" 40

def notText : String := "stream did not contain valid UTF-8"

def nameLimit : Nat := 255

def pathLimit : Nat := 4095

end Files

/-- The files and the directories of a system, each by the names that lead to it
from the root. Every directory on the way to one of them is there too. -/
structure FileTree where
  files : List (List String × String)
  directories : List (List String)
  workingDirectory : List String

namespace FileTree

inductive Place
  | directory (names : List String)
  | file (text : String)

variable (tree : FileTree)

def hasDirectory (names : List String) : Bool :=
  tree.directories.any names.isPrefixOf || tree.files.any (names.isPrefixOf ·.1)

def find (names : List String) : Except String Place :=
  match tree.files.lookup names with
  | some text => .ok (.file text)
  | none => if tree.hasDirectory names then .ok (.directory names) else .error Files.missing

/-- One name of a path. No name at all, as between two slashes and after the
last one, stays where it is, and above the root there is only the root. -/
def step : Place → String → Except String Place
  | .file _, _ => .error Files.notDirectory
  | .directory names, name =>
    if name = "" ∨ name = "." then .ok (.directory names)
    else if name = ".." then .ok (.directory names.dropLast)
    else if Files.nameLimit < name.utf8ByteSize then .error Files.nameTooLong
    else tree.find (names ++ [name])

def follow (path : String) : Except String Place :=
  let start := if path.startsWith "/" then [] else tree.workingDirectory
  (path.splitOn "/").foldlM tree.step (.directory start)

def read : Files := fun path =>
  if path = "" then .error Files.missing
  else if Files.pathLimit < path.utf8ByteSize then .error Files.nameTooLong
  else do
    match ← tree.follow path with
    | .file text => return text
    | .directory _ => throw Files.isDirectory

def standardDirectories : List (List String) :=
  ["bin", "dev", "etc", "home", "lib", "opt", "proc", "root", "sbin", "sys", "tmp", "usr",
    "var"].map
    ([·])

/-- The files that are always there and empty: the null device, and the standard
input of a command that is given none. -/
def standardFiles : List (List String × String) :=
  [(["dev", "null"], ""), (["dev", "stdin"], "")]

/-- A working directory that holds just these files. It stands among the temporary
files under a name that no path can spell. -/
def scratch (files : OrderedMap String String) : FileTree :=
  let home := ["tmp", ""]
  let names (path : String) := (path.splitOn "/").filter fun name => name != "" && name != "."
  { files := files.entries.map (fun (path, text) => (home ++ names path, text)) ++ standardFiles
    directories := home :: standardDirectories
    workingDirectory := home }

end FileTree

end PackagePlan.Command
