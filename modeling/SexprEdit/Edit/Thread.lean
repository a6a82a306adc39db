import SexprEdit.Edit.Extract

/-!
# Threading calls

Nested calls become a pipeline that starts with the innermost argument:

    (f (g (h x) b) c)    is    (-> x h (g b) (f c))
    (f a (g b (h x)))    is    (->> x h (g b) (f a))

Each step keeps the other arguments of its call in their order. A step that has only its head left is written as
that head.
-/

namespace SexprEdit

/-- Which argument of a call is threaded. -/
inductive ThreadStyle where
  | first
  | last
deriving DecidableEq, Repr

namespace ThreadStyle

def arrow : ThreadStyle → Text
  | first => "->".toList
  | last => "->>".toList

end ThreadStyle

namespace Node

variable {ι : Type}

/-- Whether a node can head a call: a symbol or a keyword. -/
def isCallable : Node ι → Bool
  | atom _ a => a.kind = .symbol || a.kind = .keyword
  | _ => false

def isCall : Node ι → Bool
  | composite _ (.bracket .list) children => (children.find? isForm).any isCallable
  | _ => false

/-- The children of a call cut at the argument that is threaded. -/
def cutAtArgument? (style : ThreadStyle) (children : List (Node ι)) : Option (Cut (Node ι)) :=
  match style with
  | .first => cutAtForm? 1 children
  | .last => if formCount children < 2 then none else cutAtLast? children

/-- The step that is left of a call without its threaded argument, and that argument. -/
def peel? (style : ThreadStyle) (n : Cell) : Option (Draft × Cell) :=
  if n.isCall then
    (cutAtArgument? style n.children).map fun cut =>
      let before := dropBlanksRight cut.before
      let gap := blankIf (needsGap (.bracket .list) before.getLast? cut.after.head?) none
      let rest := before.map kept ++ gap ++ cut.after.map kept
      let step := match rest.filter (!·.isWhitespace), rest.find? isForm with
        | [_], some head => head
        | _, _ => .composite none (.bracket .list) rest
      (step, cut.focus)
  else none

/-- The steps of nested calls, outermost first, and the argument at their core, in at most `fuel` calls. -/
def peelWithin (style : ThreadStyle) : Nat → Cell → List Draft × Cell
  | 0, n => ([], n)
  | fuel + 1, n =>
    match peel? style n with
    | some (step, argument) =>
      let inner := peelWithin style fuel argument
      (step :: inner.1, inner.2)
    | none => ([], n)

end Node

namespace Cursor

/-- Turn the nested call under the cursor into a pipeline. -/
def thread (style : ThreadStyle) (c : Cursor) : Except EditError Cursor :=
  match Node.peel? style c.node with
  | some (step, argument) =>
    if argument.isCall then
      let inner := Node.peelWithin style argument.weight argument
      let items := Draft.symbol style.arrow :: inner.2.kept :: (step :: inner.1).reverse
      EditError.ofCursor (c.replace (Draft.spaced .list items))
    else .error .notNestedCall
  | none => .error .notNestedCall

end Cursor

end SexprEdit
