import Mathlib.Data.List.Induction
import Mathlib.Tactic.SplitIfs
import SexprEdit.Text.Position

/-!
# Parts of a text

A byte offset is exact if some part of the text in front of it has just that many bytes. The parts that
`Text.upTo` and `Text.slice` cut off at exact offsets are those parts, without any rounding, and the position that is
kept while running over a text is where that text ends.
-/

namespace SexprEdit

namespace Text

/-- The part of a text that begins at a byte offset and has the given length in bytes. -/
def slice (start length : Nat) (t : Text) : Text :=
  upTo length (t.drop (upTo start t).length)

theorem upTo_bytes_append (s t : Text) : upTo s.bytes (s ++ t) = s := by
  induction s with
  | nil =>
    cases t with
    | nil => rfl
    | cons c cs => simp [upTo, Nat.not_le.mpr c.utf8Size_pos]
  | cons c s ih => simp [upTo, ih]

theorem slice_bytes_append (before middle after : Text) :
    slice before.bytes middle.bytes (before ++ middle ++ after) = middle := by
  rw [slice, List.append_assoc, upTo_bytes_append, List.drop_left, upTo_bytes_append]

theorem lineColumn_concat (t : Text) (c : Char) :
    lineColumn (t ++ [c]) =
      if c = '\n' then ((lineColumn t).1 + 1, 1) else ((lineColumn t).1, (lineColumn t).2 + 1) := by
  by_cases hc : c = '\n'
  · simp [lineColumn, hc]
  · simp [lineColumn, hc]

end Text

namespace Position

theorem advance_eq (t : Text) : advance {} t = ⟨t.bytes, t.lineColumn.1, t.lineColumn.2⟩ := by
  induction t using List.reverseRecOn with
  | nil => rfl
  | append_singleton t c ih =>
    have hconcat : advance {} (t ++ [c]) = (advance {} t).step c := List.foldl_append
    rw [hconcat, ih, step, Text.lineColumn_concat]
    split_ifs <;> simp

end Position

end SexprEdit
