import SexprEdit.Cursor.Basic
import SexprEdit.Text.Position
import SexprEdit.Text.Space

/-!
# Where a cursor is

The location of the current node in the source, the way down to it, and a short rendering of a node.
-/

namespace SexprEdit

/-- Where a node is: the path that leads to it, and its place in the source. -/
structure Location where
  path : List Nat
  offset : Nat
  line : Nat
  column : Nat
deriving DecidableEq, Repr

/-- A composite on the way to a cursor: the number of the form taken in it, its kind, and its head symbol. -/
structure PathStep where
  index : Nat
  kind : String
  head : Option Text
deriving DecidableEq, Repr

namespace Node

variable {ι : Type}

def headSymbol? : Node ι → Option Text
  | composite _ (.bracket .list) children => (children.find? isForm).bind symbol?
  | _ => none

/-- The source on one line, with every run of white space as one blank, cut to a number of characters. -/
def preview (width : Nat) (n : Node ι) : Text :=
  let line := Text.squeeze n.text
  if line.length ≤ width then line else line.take (width - 3) ++ ['.', '.', '.']

end Node

namespace Position

def location (p : Position) (path : List Nat) : Location :=
  ⟨path, p.offset, p.line, p.column⟩

end Position

namespace PathStep

def render (s : PathStep) : String :=
  match s.head with
  | some head => "(" ++ String.ofList head ++ s!")[{s.index}]"
  | none => s!"{s.kind}[{s.index}]"

def renderAll (steps : List PathStep) : String :=
  " > ".intercalate (steps.map render)

end PathStep

namespace Cursor

/-- The location of the current node in the source of the whole tree. -/
def location (c : Cursor) : Location :=
  (Position.advance {} (Text.upTo c.offset c.source)).location c.path

/-- The composites around the cursor, outermost first. -/
def pathSteps (c : Cursor) : List PathStep :=
  c.frames.reverse.map fun f => ⟨f.index, f.kind.name, f.parent.headSymbol?⟩

end Cursor

end SexprEdit
