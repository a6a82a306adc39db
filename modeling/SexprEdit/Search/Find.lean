import SexprEdit.Cursor.Location
import SexprEdit.Search.Matcher

/-!
# Searching a tree

All matching atoms of a tree in document order, found in one pass that keeps count of the position, and the move of
a cursor to the next of them.
-/

namespace SexprEdit

/-- A matching atom and where it is. -/
structure Match where
  text : Text
  kind : AtomKind
  location : Location
deriving DecidableEq, Repr

namespace Matcher

variable {ι : Type}

mutual

/-- The matches in a node that a path leads to and that is written at a position, with the position after it. -/
def findIn (m : Matcher) (path : List Nat) (pos : Position) : Node ι → List Match × Position
  | .composite _ kind children =>
    let inner := findInAll m path 0 (!kind.closer.isEmpty) (pos.advance kind.opener) children
    (inner.1, inner.2.advance kind.closer)
  | .atom _ a =>
    (if m.matchesAtom a then [⟨a.text, a.kind, pos.location path⟩] else [], pos.advance a.text)
  | .trivia _ t => ([], pos.advance t.text)

/-- The matches in siblings, of which the first form has number `index` in the composite that a path leads to. -/
def findInAll (m : Matcher) (path : List Nat) (index : Nat) (closed : Bool) (pos : Position) :
    List (Node ι) → List Match × Position
  | [] => ([], pos)
  | n :: ns =>
    let first := findIn m (if n.isForm then path ++ [index] else path) pos n
    let pos := if n.isComment && Node.endsBefore ns.head? closed then first.2.advance ['\n'] else first.2
    let others := findInAll m path (if n.isForm then index + 1 else index) closed pos ns
    (first.1 ++ others.1, others.2)

end

/-- All matches of a tree in document order. -/
def findAll (m : Matcher) (tree : Node ι) : List Match :=
  (m.findIn [] {} tree).1

/-- Whether a path comes later in document order: its first difference is a greater number, or it goes on where
the other ends. -/
def later : List Nat → List Nat → Bool
  | [], _ => false
  | _ :: _, [] => true
  | a :: as, b :: bs => b < a || (a == b && later as bs)

/-- Move a cursor to the first match after it, or to the first of all. -/
def findNext (m : Matcher) (c : Cursor) : Except EditError Cursor :=
  let found := m.findAll c.tree
  match (found.find? fun hit => later hit.location.path c.path) <|> found.head? with
  | some hit => EditError.ofCursor (c.goto hit.location.path)
  | none => .error (.noMatch m.query)

end Matcher

end SexprEdit
