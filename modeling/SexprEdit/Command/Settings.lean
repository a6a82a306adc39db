import SexprEdit.Edit.Codec
import SexprEdit.Json.Reader
import SexprEdit.Store.Disk

/-!
# Settings

What a settings file says: how to edit, and which files of a directory are sources.
-/

namespace SexprEdit

/-- The settings of a run. -/
structure Settings where
  editor : Config := {}
  extensions : List String := ["clj", "cljs", "cljc", "edn"]

namespace Settings

/-- The file that is read if none is named. -/
def defaultFile : String := "paren.config.json"

/-- Settings: a record of which every field has a default. -/
def ofJson? (j : Json) : Option Settings := do
  let fields ← j.record? ["editor", "extensions"]
  let editor ← fields.getD? "editor" Config.ofJson? {}
  let extensions ← fields.getD? "extensions" (Json.arrayOf? Json.string?) ["clj", "cljs", "cljc", "edn"]
  return { editor, extensions }

/-- The complaint about a file with nothing in it, at its end: the line, and the bytes of that line. -/
def missingValue (content : Text) : String :=
  let line := content.count '\n' + 1
  let column := Text.bytes (content.reverse.takeWhile (· ≠ '\n'))
  s!"EOF while parsing a value at line {line} column {column}"

/-- Read the content of a settings file. Ill-formed values matter only where settings are read from them. -/
def read (content : Text) : Except String Settings :=
  if content.all Json.isBlank then .error (missingValue content)
  else
    match (Json.readPartly? content).bind ofJson? with
    | some settings => .ok settings
    | none => .error "Invalid configuration"

/-- The settings in the named file, or in the default one if that exists. -/
def load (disk : Disk) (named : Option String) : Except String Settings :=
  let path := named.getD defaultFile
  if named.isSome || disk.isFileAt path || disk.isDirectoryAt path then
    match disk.readText path with
    | .ok content => read content
    | .error e => .error ("Cannot read " ++ path ++ ": " ++ e.message)
  else .ok {}

/-- Whether a file of a directory is a source. -/
def isSource (settings : Settings) (name : String) : Bool :=
  (extension? name).any settings.extensions.contains

end Settings

end SexprEdit
