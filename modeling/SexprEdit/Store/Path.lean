import SexprEdit.Text.Basic

/-!
# File paths

Paths are written with slashes. A path is displayed as it was given; a file below a given directory is displayed as
that directory, a slash, and the way down.
-/

namespace SexprEdit

/-- Whether a path does not depend on the current directory. -/
def isAbsolutePath (path : String) : Bool :=
  path.toList.head? = some '/'

/-- The names where a path starts: none for the current directory, a slash for the top of all directories. -/
def pathStart (path : String) : List String :=
  if isAbsolutePath path then ["/"] else []

/-- The parts between the slashes of a path. -/
def pathParts (path : String) : List String :=
  (Text.split '/' path.toList).map String.ofList

def maxNameBytes : Nat := 255

def maxPathBytes : Nat := 4095

/-- The parts of a path without the empty ones at its end. -/
def pathPartsTrimmed (path : String) : List String :=
  ((pathParts path).reverse.dropWhile (· == "")).reverse

/-- Whether a path ends with a name and a slash behind it, which asks for a directory of that name. -/
def namesDirectory (path : String) : Bool :=
  path.toList.getLast? = some '/' && (pathPartsTrimmed path).getLast?.any fun part => part ≠ "." && part ≠ ".."

/-- A name below a directory, as displayed. -/
def joinPath (directory name : String) : String :=
  if directory.toList.getLast? = some '/' then directory ++ name else directory ++ "/" ++ name

/-- What stands after the last dot of a file name. A dot at the front begins no extension. -/
def extension? (name : String) : Option String :=
  let tail := name.toList.reverse.takeWhile (· ≠ '.')
  let stem := name.length - tail.length
  if stem ≤ 1 then none else some (String.ofList tail.reverse)

end SexprEdit
