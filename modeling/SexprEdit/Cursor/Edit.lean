import SexprEdit.Cursor.Basic

/-!
# Edits at the cursor

Each edit changes one node or one list of siblings and shares all the rest. Forms that would run together are kept
apart by a blank; new siblings take over the line break in front of the form that they are put next to.
-/

namespace SexprEdit

namespace Frame

/-- Composites with a fixed number of forms neither gain nor lose any. -/
def checkVariadic (kind : Kind) : Except CursorError Unit :=
  match kind with
  | .mark m => .error (.fixedArity m.name)
  | _ => .ok ()

/-- What to put between a new sibling and a form, given what stands before that form: the line break there, else a
line break at the top of a document and a blank elsewhere. -/
def separator (kind : Kind) (before : List Cell) (stamp : Stamp) : Cell :=
  match before.getLast? with
  | some n => if n.isLineBreak then n else fallback
  | none => fallback
where
  /-- What stands between siblings by default. -/
  fallback : Cell := if kind = .root then .newline stamp 0 else .space stamp

/-- The frame with another child in place of its own, kept apart from its neighbours, as a new composite. It takes
three stamps. -/
def replaceFocus (f : Frame) (n : Cell) (fresh : Stamp) : Frame :=
  let leftGap := Node.blankIf (Node.needsGap f.kind f.before.getLast? (some n)) (fresh + 1)
  let rightGap := Node.blankIf (Node.needsGap f.kind (some n) f.after.head?) (fresh + 2)
  { stamp := fresh, kind := f.kind, before := f.before ++ leftGap, focus := n, after := rightGap ++ f.after }

/-- The text that follows the child of a frame, if no trivia do: that of the next form, or the closing text. -/
def following? (f : Frame) : Option Text :=
  match f.after with
  | [] => some f.kind.closer
  | n :: _ => if n.isForm then some n.headText else none

/-- The frame with a blank after its child, as a new composite. It takes two stamps. -/
def spaceAfter (f : Frame) (fresh : Stamp) : Frame :=
  { f with stamp := fresh, after := .space (fresh + 1) :: f.after }

/-- Keep a text at the end of the child of the innermost frame apart from what follows further out. Frames in
which nothing follows the child are passed over. -/
def keepApart (tail : Text) (fresh : Stamp) : List Frame → List Frame
  | [] => []
  | f :: outer =>
    match f.following? with
    | none => f :: outer
    | some following =>
      if following.isEmpty then f :: keepApart tail fresh outer
      else if fuses tail following then f.spaceAfter fresh :: outer
      else f :: outer

/-- As `keepApart`, for frames of which the innermost already keeps its child apart from what follows in it. -/
def keepApartOutside (tail : Text) (fresh : Stamp) : List Frame → List Frame
  | [] => []
  | f :: outer =>
    match f.following? with
    | some [] => f :: keepApart tail fresh outer
    | _ => f :: outer

end Frame

namespace Cursor

open SexprEdit.Frame (checkVariadic separator)

/-- Only forms can be put into a tree. -/
def checkForm (n : Node ι) : Except CursorError Unit :=
  if n.isForm then .ok () else .error .notAForm

/-- The cursor and the new node with its stamps, for an edit that puts in a draft. -/
def adopt (c : Cursor) (d : Draft) : Cell × Cursor :=
  let stamped := Node.stamp c.fresh d
  (stamped.1, { c with fresh := stamped.2 })

/-- Put a form in place of the current node. At the root the form becomes the only one of the document, unless it
is a document itself. -/
def replace (c : Cursor) (d : Draft) : Except CursorError Cursor := do
  checkForm d
  let (n, c) := c.adopt d
  match c.frames with
  | [] =>
    if n.isRoot then return ⟨n, [], c.fresh⟩
    else return ⟨.composite c.fresh .root [n], [], c.fresh + 1⟩
  | f :: outer =>
    let frames := f.replaceFocus n c.fresh :: outer
    return ⟨n, Frame.keepApartOutside n.tailText (c.fresh + 3) frames, c.fresh + 5⟩

def insertBefore (c : Cursor) (d : Draft) : Except CursorError Cursor := do
  checkForm d
  let (n, c) := c.adopt d
  match c.frames with
  | [] => throw .atRoot
  | f :: outer =>
    checkVariadic f.kind
    let gap := Node.blankIf (Node.needsGap f.kind f.before.getLast? (some n)) (c.fresh + 1)
    let before := f.before ++ gap ++ [n, separator f.kind f.before (c.fresh + 2)]
    return ⟨c.node, ⟨c.fresh, f.kind, before, c.node, f.after⟩ :: outer, c.fresh + 3⟩

def insertAfter (c : Cursor) (d : Draft) : Except CursorError Cursor := do
  checkForm d
  let (n, c) := c.adopt d
  match c.frames with
  | [] => throw .atRoot
  | f :: outer =>
    checkVariadic f.kind
    let gap := Node.blankIf (Node.needsGap f.kind (some n) f.after.head?) (c.fresh + 1)
    let after := [separator f.kind f.before (c.fresh + 2), n] ++ gap ++ f.after
    return ⟨c.node, ⟨c.fresh, f.kind, f.before, c.node, after⟩ :: outer, c.fresh + 3⟩

/-- Put a form in front of the forms inside the current node. -/
def insertChild (c : Cursor) (d : Draft) : Except CursorError Cursor := do
  checkForm d
  let (n, c) := c.adopt d
  match c.node with
  | .composite _ kind children =>
    checkVariadic kind
    let children := match Node.cutAtFirst? children with
      | some cut => cut.before ++ [n, separator kind cut.before (c.fresh + 1)] ++ cut.focus :: cut.after
      | none => n :: children
    return ⟨.composite c.fresh kind children, c.frames, c.fresh + 2⟩
  | _ => throw .notComposite

/-- Put a form behind the forms inside the current node. -/
def appendChild (c : Cursor) (d : Draft) : Except CursorError Cursor := do
  checkForm d
  let (n, c) := c.adopt d
  match c.node with
  | .composite _ kind children =>
    checkVariadic kind
    let children := match Node.cutAtLast? children with
      | some cut => cut.before ++ [cut.focus, separator kind cut.before (c.fresh + 1), n] ++ cut.after
      | none => n :: children
    return ⟨.composite c.fresh kind children, c.frames, c.fresh + 2⟩
  | _ => throw .notComposite

/-- Take the current node out, with the blanks that set it apart, and move to the form after it, else to the form
before it, else to the composite around. -/
def remove (c : Cursor) : Except CursorError Cursor := do
  match c.frames with
  | [] => throw .atRoot
  | f :: outer =>
    checkVariadic f.kind
    let hasLeft := f.before.any Node.isForm
    let hasRight := f.after.any Node.isForm
    let before := if hasLeft || !hasRight then Node.dropBlanksRight f.before else f.before
    let after := if !hasLeft then Node.dropBlanksLeft f.after else f.after
    let gap := Node.blankIf (Node.needsGap f.kind before.getLast? after.head?) (c.fresh + 1)
    let after := gap ++ after
    match Node.cutAtFirst? after, Node.cutAtLast? before with
    | some cut, _ => return toChild c.fresh f.kind ⟨before ++ cut.before, cut.focus, cut.after⟩ outer (c.fresh + 2)
    | none, some cut => return toChild c.fresh f.kind ⟨cut.before, cut.focus, cut.after ++ after⟩ outer (c.fresh + 2)
    | none, none => return ⟨.composite c.fresh f.kind (before ++ after), outer, c.fresh + 2⟩

end Cursor

end SexprEdit
