import SexprEdit.Node.Basic

/-!
# Siblings

A list of siblings cut at one of them: at the first form, at the last, or at a form with a given number.
-/

namespace SexprEdit

/-- A list cut at one of its members. -/
structure Cut (α : Type) where
  before : List α
  focus : α
  after : List α

namespace Cut

def whole {α : Type} (c : Cut α) : List α :=
  c.before ++ c.focus :: c.after

/-- The cut of a list with one more member in front. -/
def push {α : Type} (a : α) (c : Cut α) : Cut α :=
  ⟨a :: c.before, c.focus, c.after⟩

end Cut

namespace Node

variable {ι : Type}

/-- Cut at the form with number `k`, counted from zero. -/
def cutAtForm? : Nat → List (Node ι) → Option (Cut (Node ι))
  | _, [] => none
  | k, n :: ns =>
    if n.isForm then
      match k with
      | 0 => some ⟨[], n, ns⟩
      | k + 1 => (cutAtForm? k ns).map (.push n)
    else (cutAtForm? k ns).map (.push n)

def cutAtFirst? : List (Node ι) → Option (Cut (Node ι))
  | [] => none
  | n :: ns => if n.isForm then some ⟨[], n, ns⟩ else (cutAtFirst? ns).map (.push n)

def cutAtLast? : List (Node ι) → Option (Cut (Node ι))
  | [] => none
  | n :: ns =>
    match cutAtLast? ns with
    | some c => some (c.push n)
    | none => if n.isForm then some ⟨[], n, ns⟩ else none

/-- The number of forms among some siblings. -/
def formCount (ns : List (Node ι)) : Nat :=
  ns.countP isForm

/-- The siblings without the blanks at their end. -/
def dropBlanksRight (ns : List (Node ι)) : List (Node ι) :=
  (ns.reverse.dropWhile isWhitespace).reverse

/-- The siblings without the blanks at their front. -/
def dropBlanksLeft (ns : List (Node ι)) : List (Node ι) :=
  ns.dropWhile isWhitespace

end Node

end SexprEdit
