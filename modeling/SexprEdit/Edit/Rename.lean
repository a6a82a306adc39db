import SexprEdit.Cursor.Edit
import SexprEdit.Reader.Basic
import SexprEdit.Search.Matcher

/-!
# Fragments and renaming

A fragment is text that holds one form. Renaming walks over the whole document and puts a new atom in place of
each matching one.
-/

namespace SexprEdit

def Tree.readFragment (fragment : Text) : Except EditError Tree :=
  match Tree.readForms fragment with
  | .error e => .error (.invalidFragment e.message)
  | .ok [] => .error (.invalidFragment "fragment holds no form")
  | .ok [form] => .ok form
  | .ok forms => .error (.multipleForms forms.length)

namespace Cursor

/-- Rename the current node if it is an atom that matches, and say how many atoms matched. -/
def renameHere (m : Matcher) (replacement : Text) (c : Cursor) : Except EditError (Cursor × Nat) :=
  match c.node with
  | .atom _ a =>
    if m.matchesAtom a then
      let text := m.renamed replacement a
      if text = a.text then .ok (c, 1)
      else
        match Atom.read text with
        | .error e => .error (.invalidFragment (String.ofList text ++ ": " ++ e.message))
        | .ok renamed => (EditError.ofCursor (c.replace (.atom none renamed))).map (·, 1)
    else .ok (c, 0)
  | _ => .ok (c, 0)

/-- Rename from the current node to the last, in at most `fuel` steps, with the number of atoms that matched. -/
def renameWithin (m : Matcher) (replacement : Text) : Nat → Cursor → Nat → Except EditError (Cursor × Nat)
  | 0, c, count => .ok (c, count)
  | fuel + 1, c, count => do
    let (here, hits) ← c.renameHere m replacement
    match here.next? with
    | some next => renameWithin m replacement fuel next (count + hits)
    | none => .ok (here, count + hits)

/-- Rename every matching atom. The cursor keeps its path, and stays as it is if nothing matches. -/
def rename (m : Matcher) (replacement : Text) (c : Cursor) : Except EditError (Cursor × Nat) := do
  let start := c.root
  let (last, count) ← renameWithin m replacement (start.node.weight + 1) start 0
  if count = 0 then return (c, 0)
  match last.goto c.path with
  | .ok restored => return (restored, count)
  | .error _ => return (last.root, count)

end Cursor

end SexprEdit
