import SexprEdit.Cursor.Basic
import SexprEdit.Reader.Error
import SexprEdit.Store.Error

/-!
# Editing errors

What can go wrong in a session, with its wording in `EditError.message`. Queries are not compiled into patterns, so there
is no error for one whose pattern would be too large.
-/

namespace SexprEdit

/-- Why an operation on a document or session fails. -/
inductive EditError where
  | unreadable (error : ReadError)
  | file (error : FileError)
  | cursor (error : CursorError)
  | unknownSession (id : String)
  | duplicateId (id : String)
  | invalidFragment (message : String)
  | multipleForms (count : Nat)
  | noEnclosingScope
  | bindingName
  | notNestedCall
  | emptyQuery
  | noMatch (query : Text)
  | nothingToUndo
  | nothingToRedo
deriving DecidableEq, Repr

namespace EditError

def message : EditError → String
  | unreadable e => "Parse error: " ++ e.message
  | file e => "IO error: " ++ e.message
  | cursor e => "Cursor error: " ++ e.message
  | unknownSession id => "Unknown session: " ++ id
  | duplicateId id => "Session already exists: " ++ id
  | invalidFragment message => "Invalid fragment: " ++ message
  | multipleForms count => s!"Fragment holds {count} forms, expected exactly one"
  | noEnclosingScope => "No enclosing scope to bind in"
  | bindingName => "A binding name or pattern cannot be extracted"
  | notNestedCall => "Current form is not a call with a nested call argument"
  | emptyQuery => "Search query must not be empty"
  | noMatch query => "No match for '" ++ String.ofList query ++ "'"
  | nothingToUndo => "Nothing to undo"
  | nothingToRedo => "Nothing to redo"

/-- The result of moving or editing a cursor, as the result of an operation. -/
def ofCursor : Except CursorError α → Except EditError α
  | .ok a => .ok a
  | .error e => .error (.cursor e)

end EditError

end SexprEdit
