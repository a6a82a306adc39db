import SexprEdit.Edit.Rename
import SexprEdit.Edit.Thread
import SexprEdit.Search.Find

/-!
# Mutations

Every move and edit as a value, so that edits can be sent, stored and applied in batches.
-/

namespace SexprEdit

/-- Where to move. -/
inductive Direction where
  | down
  | up
  | left
  | right
  | root
  | next
  | prev
  | leftmost
  | rightmost
deriving DecidableEq, Repr

/-- A move or an edit. -/
inductive Mutation where
  | navigate (direction : Direction)
  | goto (path : List Nat)
  | replace (fragment : Text)
  | insertBefore (fragment : Text)
  | insertAfter (fragment : Text)
  | insertChild (fragment : Text)
  | appendChild (fragment : Text)
  | remove
  | rename (query replacement : Text) (options : MatchOptions)
  | extract (name : Text)
  | thread (style : ThreadStyle)
  | findNext (query : Text) (options : MatchOptions)
deriving DecidableEq, Repr

namespace Direction

def move (d : Direction) (c : Cursor) : Except CursorError Cursor :=
  match d with
  | down => c.down
  | up => c.up
  | left => c.left
  | right => c.right
  | root => .ok c.root
  | leftmost => .ok c.leftmost
  | rightmost => .ok c.rightmost
  | next => c.next?.elim (.error .noSibling) .ok
  | prev => c.prev?.elim (.error .atRoot) .ok

end Direction

/-- The cursor after a mutation and, for a rename, the number of atoms that matched. -/
structure Applied where
  cursor : Cursor
  replacements : Option Nat := none

namespace Mutation

def moved : Except CursorError Cursor → Except EditError Applied
  | .ok cursor => .ok ⟨cursor, none⟩
  | .error e => .error (.cursor e)

/-- The result of an edit that puts in the form of a fragment. -/
def withFragment (fragment : Text) (edit : Draft → Except CursorError Cursor) : Except EditError Applied := do
  let form ← Tree.readFragment fragment
  moved (edit form.draft)

/-- Apply a mutation to a cursor. -/
def apply (config : Config) (c : Cursor) : Mutation → Except EditError Applied
  | navigate direction => moved (direction.move c)
  | goto path => moved (c.goto path)
  | replace fragment => withFragment fragment c.replace
  | insertBefore fragment => withFragment fragment c.insertBefore
  | insertAfter fragment => withFragment fragment c.insertAfter
  | insertChild fragment => withFragment fragment c.insertChild
  | appendChild fragment => withFragment fragment c.appendChild
  | remove => moved c.remove
  | rename query replacement options => do
    let m ← Matcher.ofQuery query options
    let (cursor, count) ← c.rename m replacement
    return ⟨cursor, some count⟩
  | extract name => do return ⟨← c.extract config name, none⟩
  | thread style => do return ⟨← c.thread style, none⟩
  | findNext query options => do
    let m ← Matcher.ofQuery query options
    return ⟨← m.findNext c, none⟩

end Mutation

end SexprEdit
