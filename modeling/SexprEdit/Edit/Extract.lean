import SexprEdit.Cursor.Edit
import SexprEdit.Edit.Config
import SexprEdit.Edit.Error
import SexprEdit.Reader.Basic

/-!
# Extracting a binding

The current form is bound to a name in the innermost binding form around it, and the name takes its place. In the
body of that form the binding goes behind the others; inside the value of a binding it goes in front of that one.
Without a binding form around, the form at the top of the document is wrapped in a new one.
-/

namespace SexprEdit

/-- Where a new binding goes. -/
inductive BindingSite where
  | body (depth : Nat)
  | value (depth pair : Nat)
  | top
deriving DecidableEq, Repr

namespace Draft

def symbol (text : Text) : Draft :=
  .atom none ⟨.symbol, text⟩

def blank : Draft :=
  .space none

/-- A new composite with blanks between its forms. -/
def spaced (bracket : Bracket) (items : List Draft) : Draft :=
  .composite none (.bracket bracket) (items.intersperse blank)

end Draft

namespace Node

/-- Whether a node is a list such as `(let [a 1] a)`. -/
def isBindingForm (config : Config) (n : Node ι) : Bool :=
  match n, n.forms with
  | composite _ (.bracket .list) _, head :: composite _ (.bracket .vector) _ :: _ =>
    head.symbol?.any config.isBindingForm
  | _, _ => false

/-- What stands between two bindings: the line break in front of the second, if there is one. -/
def bindingSeparator (bindings : List Cell) : Draft :=
  match (cutAtForm? 2 bindings).bind (·.before.getLast?) with
  | some n => if n.isLineBreak then n.kept else Draft.blank
  | none => Draft.blank

/-- The bindings with a new one behind them. -/
def appendBinding (bindings : List Cell) (name : Text) (value : Cell) : Draft :=
  let binding := [Draft.symbol name, Draft.blank, value.kept]
  let children := match cutAtLast? bindings with
    | some cut =>
      cut.before.map kept ++ cut.focus.kept :: bindingSeparator bindings :: binding ++ cut.after.map kept
    | none => binding ++ bindings.map kept
  .composite none (.bracket .vector) children

/-- The bindings with a new one in front of the one with the given number. -/
def insertBinding (bindings : List Cell) (pair : Nat) (name : Text) (value : Cell) : Draft :=
  let binding := [Draft.symbol name, Draft.blank, value.kept, bindingSeparator bindings]
  let children := match cutAtForm? (pair * 2) bindings with
    | some cut => cut.before.map kept ++ binding ++ cut.focus.kept :: cut.after.map kept
    | none => bindings.map kept ++ binding
  .composite none (.bracket .vector) children

def wrapInBinding (head name : Text) (value body : Cell) : Draft :=
  let gap := if body.text.contains '\n' then .newline none 2 else Draft.blank
  .composite none (.bracket .list)
    [Draft.symbol head, Draft.blank, Draft.spaced .vector [Draft.symbol name, value.kept], gap, body.kept]

end Node

namespace Cursor

/-- The site of a new binding, found from the innermost frame outwards; `inner` is the number of the form taken in
the frame before. The document itself binds nothing. Names and patterns stand at the even places of a binding
vector and cannot be bound. -/
def bindingSite (config : Config) (inner : Option Nat) : List Frame → Except EditError BindingSite
  | [] => .ok .top
  | [_] => .ok .top
  | f :: g :: outer =>
    if f.parent.isBindingForm config then
      match f.index, inner with
      | 0, _ => bindingSite config (some f.index) (g :: outer)
      | 1, none => bindingSite config (some f.index) (g :: outer)
      | 1, some place =>
        if place % 2 = 0 then .error .bindingName else .ok (.value (outer.length + 1) (place / 2))
      | _, _ => .ok (.body (outer.length + 1))
    else bindingSite config (some f.index) (g :: outer)

def upBy : Nat → Cursor → Except CursorError Cursor
  | 0, c => .ok c
  | k + 1, c => do upBy k (← c.up)

/-- Up until the given number of composites is around the cursor. -/
def ascend (c : Cursor) (depth : Nat) : Except CursorError Cursor :=
  upBy (c.depth - depth) c

/-- Replace the bindings of the binding form at a depth, and rest on that form. -/
def editBindings (c : Cursor) (depth : Nat) (edit : List Cell → Draft) : Except CursorError Cursor := do
  let form ← c.ascend depth
  let vector ← (← form.down).right
  (← vector.replace (edit vector.node.children)).up

/-- Bind the current form to a name, and rest on the form that holds the binding. -/
def extract (config : Config) (name : Text) (c : Cursor) : Except EditError Cursor := do
  if c.isRoot then throw .noEnclosingScope
  match Atom.read name with
  | .ok ⟨.symbol, _⟩ => pure ()
  | _ => throw (.invalidFragment ("binding name must be a symbol, got '" ++ String.ofList name ++ "'"))
  let site ← bindingSite config none c.frames
  let value := c.node
  EditError.ofCursor do
    let referenced ← c.replace (Draft.symbol name)
    match site with
    | .body depth => referenced.editBindings depth fun bindings => Node.appendBinding bindings name value
    | .value depth pair => referenced.editBindings depth fun bindings => Node.insertBinding bindings pair name value
    | .top =>
      let top ← referenced.ascend 1
      top.replace (Node.wrapInBinding config.bindingHead name value top.node)

end Cursor

end SexprEdit
