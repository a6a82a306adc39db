import SexprEdit.Store.Error
import SexprEdit.Store.Path
import SexprEdit.Text.Basic

/-!
# Disk

The files that a program can see, as a value. A file is known by the names along the way to it, of which two dots can
only be the first ones: they lead out of the current directory. The directories above a file exist with it, as do the
current directory and all above it; others have to be listed.
-/

namespace SexprEdit

/-- Files with their content, and directories that need not hold any. -/
structure Disk where
  files : List (List String × ByteArray) := []
  directories : List (List String) := []

namespace Disk

def file? (d : Disk) (names : List String) : Option ByteArray :=
  d.files.lookup names

/-- Whether the names lead to the current directory or to one above it. -/
def isAbove (names : List String) : Bool :=
  names.all (· == "..")

def isDirectory (d : Disk) (names : List String) : Bool :=
  isAbove names || names == ["/"] || d.directories.contains names ||
    d.files.any fun entry => names.isPrefixOf entry.1 && names.length < entry.1.length

/-- Put a file with this content in its place, or add it. -/
def put (d : Disk) (names : List String) (content : ByteArray) : Disk :=
  if (d.file? names).isSome then
    { d with files := d.files.map fun entry => if entry.1 == names then (names, content) else entry }
  else { d with files := d.files ++ [(names, content)] }

/-- The names that one more part of a written path leads to. Two dots lead back along the way, and out of the current
directory where there is none. -/
def step (names : List String) (part : String) : List String :=
  if part == "" || part == "." then names
  else if part == ".." && names == ["/"] then names
  else if part == ".." && !names.isEmpty && names.getLast? != some ".." then names.dropLast
  else names ++ [part]

/-- Nothing, if the names lead to a directory. -/
def requireDirectory (d : Disk) (names : List String) : Except FileError Unit :=
  if d.isDirectory names then .ok ()
  else if (d.file? names).isSome then .error .notADirectory
  else .error .notFound

/-- The names that the parts of a written path lead to. All parts but the last have to be directories, and none may
be too long. -/
def walk (d : Disk) (names : List String) : List String → Except FileError (List String)
  | [] => .ok names
  | part :: parts => do
    d.requireDirectory names
    if maxNameBytes < part.utf8ByteSize then throw .nameTooLong
    d.walk (step names part) parts

/-- Nothing, if a written path can be looked up at all. -/
def checkPath (path : String) : Except FileError Unit :=
  if path.toList.contains '\x00' then .error .nameWithNul
  else if path = "" then .error .notFound
  else if maxPathBytes < path.utf8ByteSize then .error .nameTooLong
  else .ok ()

/-- The names that a written path leads to. -/
def locate (d : Disk) (path : String) : Except FileError (List String) := do
  checkPath path
  d.walk (pathStart path) (pathParts path)

/-- The names that a written path leads to, for a file that may be new. A file cannot have a slash behind its
name. -/
def locateNew (d : Disk) (path : String) : Except FileError (List String) := do
  if namesDirectory path then
    checkPath path
    d.requireDirectory (← d.walk (pathStart path) (pathPartsTrimmed path).dropLast)
    throw .isADirectory
  d.locate path

/-- Whether a written path leads to a file. -/
def isFileAt (d : Disk) (path : String) : Bool :=
  match d.locate path with
  | .ok names => (d.file? names).isSome
  | .error _ => false

/-- Whether a written path leads to a directory. -/
def isDirectoryAt (d : Disk) (path : String) : Bool :=
  match d.locate path with
  | .ok names => (d.file? names).isNone && d.isDirectory names
  | .error _ => false

def readText (d : Disk) (path : String) : Except FileError Text := do
  let names ← d.locate path
  match d.file? names with
  | some content =>
    match String.fromUTF8? content with
    | some text => return text.toList
    | none => throw .notText
  | none => throw (if d.isDirectory names then .isADirectory else .notFound)

def writeText (d : Disk) (path : String) (text : Text) : Except FileError Disk := do
  let names ← d.locateNew path
  if (d.file? names).isNone && d.isDirectory names then throw .isADirectory
  return d.put names (String.ofList text).toUTF8

/-- Whether one list of names comes before another: at the first difference by code points, or by being shorter. -/
def namesLE (a b : List String) : Bool :=
  !decide (b < a)

/-- The ways from a directory to all files below it, entries sorted by name. -/
def filesBelow (d : Disk) (names : List String) : List (List String) :=
  ((d.files.filter fun entry => names.isPrefixOf entry.1).map fun entry => entry.1.drop names.length).mergeSort
    namesLE

/-- The files of `new` that are not in `old` with the same content. -/
def changes (old new : Disk) : List (List String × ByteArray) :=
  new.files.filter fun entry => !decide ((old.file? entry.1).map ByteArray.data = some entry.2.data)

end Disk

end SexprEdit
