import SexprEdit.Edit.Mutation
import SexprEdit.Reader.Basic

/-!
# Documents

A document is a tree with the cursor that edits it and a note of where its source came from. Documents are values:
an edit gives a new document and leaves the old one as it is.
-/

namespace SexprEdit

/-- Where the source of a document came from. -/
inductive Origin where
  | text
  | file (path : String)
deriving DecidableEq, Repr

/-- A tree under edit. -/
structure Document where
  cursor : Cursor
  origin : Origin := .text

namespace Document

/-- The document of a source, with the cursor at the root and new stamps, from `fresh` on. -/
def read (fresh : Stamp) (source : Text) (origin : Origin := .text) : Except EditError Document :=
  match Tree.read source with
  | .ok tree => .ok ⟨.ofTree fresh tree, origin⟩
  | .error e => .error (.unreadable e)

def source (d : Document) : Text :=
  d.cursor.source

/-- Whether another document is on a different tree, rather than only at a different place. Trees differ unless
they are known to be one and the same. -/
def treeChanged (old new : Document) : Bool :=
  !old.cursor.sameTree new.cursor

/-- Apply a mutation. -/
def apply (config : Config) (d : Document) (m : Mutation) : Except EditError (Document × Option Nat) := do
  let applied ← m.apply config d.cursor
  return (⟨applied.cursor, d.origin⟩, applied.replacements)

/-- Two counts of replacements put together; either may be missing. -/
def addCounts : Option Nat → Option Nat → Option Nat
  | some a, some b => some (a + b)
  | none, b => b
  | a, none => a

/-- Apply mutations one after the other, with the sum of their replacements. -/
def applyAll (config : Config) (d : Document) (count : Option Nat := none) :
    List Mutation → Except EditError (Document × Option Nat)
  | [] => .ok (d, count)
  | m :: ms => do
    let (next, replaced) ← d.apply config m
    next.applyAll config (addCounts count replaced) ms

end Document

end SexprEdit
