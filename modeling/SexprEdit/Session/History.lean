/-!
# History

Earlier states that can be gone back to, and later ones that were gone back from. A new state drops the later ones
and, beyond the limit, the earliest.
-/

namespace SexprEdit

/-- States before and after the present one, nearest first. A limit of zero is no limit. -/
structure History (α : Type) where
  past : List α := []
  future : List α := []
  limit : Nat := 100

namespace History

variable {α : Type}

def record (h : History α) (previous : α) : History α :=
  let past := previous :: h.past
  { h with past := if 0 < h.limit && h.limit < past.length then past.dropLast else past, future := [] }

/-- Go back, with the present state kept as the nearest later one. -/
def undo? (h : History α) (present : α) : Option (α × History α) :=
  match h.past with
  | [] => none
  | previous :: past => some (previous, { h with past, future := present :: h.future })

/-- Go forward again, with the present state kept as the nearest earlier one. -/
def redo? (h : History α) (present : α) : Option (α × History α) :=
  match h.future with
  | [] => none
  | following :: future => some (following, { h with past := present :: h.past, future })

/-- Whether there is a state to go back to. -/
def canUndo (h : History α) : Bool :=
  !h.past.isEmpty

/-- Whether there is a state to go forward to. -/
def canRedo (h : History α) : Bool :=
  !h.future.isEmpty

def clear (h : History α) : History α :=
  { h with past := [], future := [] }

end History

end SexprEdit
