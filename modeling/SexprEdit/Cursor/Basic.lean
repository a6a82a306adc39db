import SexprEdit.Node.Gap
import SexprEdit.Node.Siblings

/-!
# Cursor

A cursor rests on a form of a tree. It holds that node and one frame for each composite around it. The nodes carry
stamps, so that a node can be told from another one with the same content, and an unchanged composite can be
shared by the trees before and after an edit. Stamps are drawn in order from a supply, and trees that do not come from
one another by edits draw from different supplies.

A frame holds its composite as that was last written. After an edit further in, the child in the frame is no
longer the node below it: the frame is out of step. Climbing through such a frame makes a new composite, climbing
through a frame in step gives the old one back.
-/

namespace SexprEdit

/-- Where stamps are drawn from. A session draws from a new supply whenever it goes on from another document than the
one that it made last, so the supply is told by the name of the session, the number of earlier sessions of that name,
and the number of earlier branches. Whoever reads a text outside of sessions takes another number each time. -/
inductive Supply where
  | outside (number : Nat)
  | session (id : String) (opening branch : Nat)
deriving DecidableEq, Repr

/-- What tells a node from all others: a number, and the supply that it was drawn from. -/
structure Stamp where
  number : Nat
  supply : Supply
deriving DecidableEq, Repr

def Supply.first (s : Supply) : Stamp :=
  ⟨0, s⟩

/-- The stamp that is drawn so many draws later. -/
instance : HAdd Stamp Nat Stamp where
  hAdd stamp draws := { stamp with number := stamp.number + draws }

/-- A node under a cursor. -/
abbrev Cell := Node Stamp

/-- A tree some of whose nodes are already under a cursor and keep their stamps. -/
abbrev Draft := Node (Option Stamp)

namespace Node

mutual

/-- Give new stamps, from `fresh` on, to the nodes that have none; with the first stamp left over. -/
def stamp (fresh : Stamp) : Draft → Cell × Stamp
  | composite label kind children =>
    let inner := stampAll (fresh + 1) children
    (composite (label.getD fresh) kind inner.1, inner.2)
  | atom label a => (atom (label.getD fresh) a, fresh + 1)
  | trivia label t => (trivia (label.getD fresh) t, fresh + 1)

/-- Give new stamps to the nodes of several trees. -/
def stampAll (fresh : Stamp) : List Draft → List Cell × Stamp
  | [] => ([], fresh)
  | n :: ns =>
    let first := stamp fresh n
    let others := stampAll first.2 ns
    (first.1 :: others.1, others.2)

end

/-- A tree of which no node is under a cursor yet. -/
def draft (n : Tree) : Draft :=
  n.map fun _ => none

def kept (n : Cell) : Draft :=
  n.map some

def space (label : ι) : Node ι :=
  trivia label (.whitespace [' '])

def newline (label : ι) (indent : Nat) : Node ι :=
  trivia label (.whitespace ('\n' :: List.replicate indent ' '))

def blankIf (needed : Bool) (label : ι) : List (Node ι) :=
  if needed then [space label] else []

end Node

/-- Why a cursor cannot move or edit. -/
inductive CursorError where
  | notComposite
  | emptyComposite
  | atRoot
  | noSibling
  | fixedArity (name : String)
  | notAForm
deriving DecidableEq, Repr

namespace CursorError

def message : CursorError → String
  | notComposite => "Current node is not a composite"
  | emptyComposite => "Composite has no children"
  | atRoot => "Already at the root"
  | noSibling => "No sibling in that direction"
  | fixedArity name => s!"A {name} form wraps a fixed number of forms"
  | notAForm => "Whitespace and comments cannot be edited as forms"

end CursorError

/-- A composite around the cursor as it was last written, cut at the child that the cursor is in. -/
structure Frame where
  stamp : Stamp
  kind : Kind
  before : List Cell
  focus : Cell
  after : List Cell

namespace Frame

def parent (f : Frame) : Cell :=
  .composite f.stamp f.kind (f.before ++ f.focus :: f.after)

/-- Whether the child in the frame is the given node. -/
def inStep (f : Frame) (n : Cell) : Bool :=
  f.focus.label == n.label

/-- The frame with the given node as its child. A frame that was in step stays as it is, any other becomes a new
composite. -/
def settle (f : Frame) (n : Cell) (fresh : Stamp) : Frame × Stamp :=
  if f.inStep n then (f, fresh) else ({ f with stamp := fresh, focus := n }, fresh + 1)

/-- The number of the child among the forms of the composite. -/
def index (f : Frame) : Nat :=
  Node.formCount f.before

/-- The frame moved to a form before the child, given the cut of the earlier siblings. -/
def toLeft (f : Frame) (c : Cut Cell) : Frame :=
  { f with before := c.before, focus := c.focus, after := c.after ++ f.focus :: f.after }

/-- The frame moved to a form after the child, given the cut of the later siblings. -/
def toRight (f : Frame) (c : Cut Cell) : Frame :=
  { f with before := f.before ++ f.focus :: c.before, focus := c.focus, after := c.after }

/-- How many bytes the composite writes before the child. A comment right before it is ended. -/
def width (f : Frame) : Nat :=
  Text.bytes f.kind.opener + Text.bytes (Node.childrenText (!f.focus.startsWithNewline) f.before)

end Frame

/-- A place in a tree: the node there, the frames around it, innermost first, and the first stamp that is not in
use. -/
structure Cursor where
  node : Cell
  frames : List Frame := []
  fresh : Stamp

namespace Cursor

/-- The cursor at the root of a tree whose nodes get new stamps, from `fresh` on. -/
def ofTree (fresh : Stamp) (t : Tree) : Cursor :=
  let stamped := Node.stamp fresh t.draft
  { node := stamped.1, fresh := stamped.2 }

/-- The cursor that draws its next stamps from another supply. -/
def drawing (c : Cursor) (supply : Supply) : Cursor :=
  { c with fresh := { c.fresh with supply } }

def isRoot (c : Cursor) : Bool :=
  c.frames.isEmpty

/-- How many composites are around the cursor. -/
def depth (c : Cursor) : Nat :=
  c.frames.length

/-- The numbers of the forms to follow from the root. -/
def path (c : Cursor) : List Nat :=
  (c.frames.map Frame.index).reverse

/-- The byte offset of the node in the source of the tree. -/
def offset (c : Cursor) : Nat :=
  (c.frames.map Frame.width).foldr (· + ·) 0

/-! ## Moves -/

/-- To the child of the current node at a cut of its children. -/
def toChild (label : Stamp) (kind : Kind) (children : Cut Cell) (frames : List Frame) (fresh : Stamp) : Cursor :=
  ⟨children.focus, ⟨label, kind, children.before, children.focus, children.after⟩ :: frames, fresh⟩

def down (c : Cursor) : Except CursorError Cursor :=
  match c.node with
  | .composite label kind children =>
    match Node.cutAtFirst? children with
    | some cut => .ok (toChild label kind cut c.frames c.fresh)
    | none => .error .emptyComposite
  | _ => .error .notComposite

def up (c : Cursor) : Except CursorError Cursor :=
  match c.frames with
  | [] => .error .atRoot
  | f :: outer =>
    let settled := f.settle c.node c.fresh
    .ok ⟨settled.1.parent, outer, settled.2⟩

/-- To the next form in the same composite. -/
def right (c : Cursor) : Except CursorError Cursor :=
  match c.frames with
  | [] => .error .noSibling
  | f :: outer =>
    match Node.cutAtFirst? f.after with
    | none => .error .noSibling
    | some cut =>
      let settled := f.settle c.node c.fresh
      .ok ⟨cut.focus, settled.1.toRight cut :: outer, settled.2⟩

/-- To the form before in the same composite. -/
def left (c : Cursor) : Except CursorError Cursor :=
  match c.frames with
  | [] => .error .noSibling
  | f :: outer =>
    match Node.cutAtLast? f.before with
    | none => .error .noSibling
    | some cut =>
      let settled := f.settle c.node c.fresh
      .ok ⟨cut.focus, settled.1.toLeft cut :: outer, settled.2⟩

/-- To the first form in the same composite, which may be the current one. -/
def leftmost (c : Cursor) : Cursor :=
  match c.frames with
  | [] => c
  | f :: outer =>
    let settled := f.settle c.node c.fresh
    match Node.cutAtFirst? f.before with
    | some cut => ⟨cut.focus, settled.1.toLeft cut :: outer, settled.2⟩
    | none => ⟨c.node, settled.1 :: outer, settled.2⟩

/-- To the last form in the same composite, which may be the current one. -/
def rightmost (c : Cursor) : Cursor :=
  match c.frames with
  | [] => c
  | f :: outer =>
    let settled := f.settle c.node c.fresh
    match Node.cutAtLast? f.after with
    | some cut => ⟨cut.focus, settled.1.toRight cut :: outer, settled.2⟩
    | none => ⟨c.node, settled.1 :: outer, settled.2⟩

/-- The root above a node, climbing through the given frames. -/
def rootFrom (n : Cell) (fresh : Stamp) : List Frame → Cursor
  | [] => ⟨n, [], fresh⟩
  | f :: outer =>
    let settled := f.settle n fresh
    rootFrom settled.1.parent settled.2 outer

def root (c : Cursor) : Cursor :=
  rootFrom c.node c.fresh c.frames

/-- The first form that follows a node, climbing through the given frames. -/
def followingFrom (n : Cell) (fresh : Stamp) : List Frame → Option Cursor
  | [] => none
  | f :: outer =>
    let settled := f.settle n fresh
    match Node.cutAtFirst? f.after with
    | some cut => some ⟨cut.focus, settled.1.toRight cut :: outer, settled.2⟩
    | none => followingFrom settled.1.parent settled.2 outer

def next? (c : Cursor) : Option Cursor :=
  match c.down with
  | .ok child => some child
  | .error _ => followingFrom c.node c.fresh c.frames

/-- To the last form inside the last form inside, and so on, in at most `fuel` steps. -/
def descendWithin : Nat → Cursor → Cursor
  | 0, c => c
  | fuel + 1, c =>
    match c.down with
    | .ok child => descendWithin fuel child.rightmost
    | .error _ => c

/-- To the last form in document order among those at or inside the current one. -/
def lastInside (c : Cursor) : Cursor :=
  descendWithin c.node.weight c

def prev? (c : Cursor) : Option Cursor :=
  match c.left with
  | .ok sibling => some sibling.lastInside
  | .error _ => c.up.toOption

/-- To the form with number `k` after the current one. -/
def rightBy : Nat → Cursor → Except CursorError Cursor
  | 0, c => .ok c
  | k + 1, c => do rightBy k (← c.right)

def follow (c : Cursor) : List Nat → Except CursorError Cursor
  | [] => .ok c
  | k :: path => do
    let first ← c.down
    follow (← rightBy k first) path

/-- To the form that a path leads to from the root. -/
def goto (c : Cursor) (path : List Nat) : Except CursorError Cursor :=
  c.root.follow path

/-! ## The tree around -/

def tree (c : Cursor) : Cell :=
  c.root.node

def source (c : Cursor) : Text :=
  c.tree.text

/-- Whether a node and the frames around it are all in step. -/
def inStepFrom (n : Cell) : List Frame → Bool
  | [] => true
  | f :: outer => f.inStep n && inStepFrom f.parent outer

/-- The root, if climbing gives back one that was there before; a cursor with a frame out of step has none, since each
climb makes a new root. -/
def sharedRoot? (c : Cursor) : Option Cell :=
  if inStepFrom c.node c.frames then some c.tree else none

/-- Whether two cursors are known to be on one and the same tree: climbing gives the same root, stamps included. -/
def sameTree (c d : Cursor) : Bool :=
  match c.sharedRoot?, d.sharedRoot? with
  | some r, some s => r.same s
  | _, _ => false

end Cursor

end SexprEdit
