import Mathlib.Order.Bounds.Basic
import SexprEdit.Proofs.Text.Position
import SexprEdit.Reader.Error

/-!
# Character boundaries

A byte offset may lie inside a character or past the end of a text. It is then rounded down to the last boundary of the
UTF-8 form, and what stands before that boundary is what `Text.upTo` cuts off (`Text.isFloor_iff`). So the line and the
column of an error are those that a position reaches by running over that part of the source, in one go or in pieces.
-/

namespace SexprEdit

namespace Text

def utf8 (t : Text) : ByteArray :=
  (String.ofList t).toUTF8

/-- Whether a character begins at a byte offset of the UTF-8 form, or the text ends there. -/
def IsBoundary (source : Text) (n : Nat) : Prop :=
  n = source.utf8.size ∨ ∃ h : n < source.utf8.size, source.utf8[n].IsUTF8FirstByte

instance (source : Text) (n : Nat) : Decidable (IsBoundary source n) :=
  inferInstanceAs (Decidable (_ ∨ _))

/-- The longest front part of a text that ends on a boundary at or before a byte offset, where an offset past the end
stands for the end. -/
structure IsFloor (source : Text) (pos : Nat) (before : Text) : Prop where
  front : before <+: source
  greatest : IsGreatest {n | IsBoundary source n ∧ n ≤ min pos source.utf8.size} before.utf8.size

variable {source before other : Text} {n pos : Nat}

theorem size_utf8 (t : Text) : t.utf8.size = t.bytes := by
  rw [utf8, String.toUTF8_eq_toByteArray, String.toByteArray_ofList]
  induction t with
  | nil => rfl
  | cons c t ih =>
    rw [List.utf8Encode_cons, ByteArray.size_append, ih, List.utf8Encode_singleton, List.size_toByteArray,
      String.length_utf8EncodeChar, bytes_cons]

theorem isBoundary_iff : IsBoundary source n ↔ ∃ before : Text, before <+: source ∧ before.bytes = n := by
  have hvalid : IsBoundary source n ↔ String.Pos.Raw.IsValid (String.ofList source) ⟨n⟩ := by
    rw [String.Pos.Raw.isValid_iff_isUTF8FirstByte, String.Pos.Raw.ext_iff]
    exact Iff.rfl
  rw [hvalid, String.Pos.Raw.isValid_ofList]
  constructor
  · intro ⟨i, hi⟩
    refine ⟨source.take i, List.take_prefix i source, ?_⟩
    rw [← size_utf8]
    exact hi.symm
  · intro ⟨before, hfront, hbytes⟩
    refine ⟨before.length, ?_⟩
    rw [← List.prefix_iff_eq_take.mp hfront, ← hbytes, ← size_utf8]
    rfl

/-! ## Front parts -/

theorem bytes_le_of_front (h : before <+: source) : before.bytes ≤ source.bytes := by
  obtain ⟨rest, rfl⟩ := h
  rw [bytes_append]
  omega

theorem eq_of_bytes_of_front (hbefore : before <+: source) (hother : other <+: source)
    (hbytes : before.bytes = other.bytes) : before = other := by
  obtain ⟨rest, rfl⟩ := hbefore
  obtain ⟨rest', hrest⟩ := hother
  rw [← upTo_bytes_append before rest, hbytes, ← hrest, upTo_bytes_append]

theorem upTo_front (n : Nat) (t : Text) : upTo n t <+: t := by
  fun_induction upTo n t with
  | case1 n => exact List.nil_prefix
  | case2 n c cs hfits ih => exact (List.prefix_cons_inj c).mpr ih
  | case3 n c cs hfits => exact List.nil_prefix

theorem bytes_upTo_le (n : Nat) (t : Text) : (upTo n t).bytes ≤ n := by
  fun_induction upTo n t with
  | case1 n => exact Nat.zero_le n
  | case2 n c cs hfits ih =>
    rw [bytes_cons]
    omega
  | case3 n c cs hfits => exact Nat.zero_le n

theorem front_le_upTo (hfront : before <+: source) (hbytes : before.bytes ≤ n) : before <+: upTo n source := by
  obtain ⟨rest, rfl⟩ := hfront
  induction before generalizing n with
  | nil => exact List.nil_prefix
  | cons c cs ih =>
    rw [bytes_cons] at hbytes
    have hfits : c.utf8Size ≤ n := by omega
    rw [List.cons_append, upTo, if_pos hfits, List.prefix_cons_inj]
    exact ih (by omega)

/-- The longest front part up to an offset is what `upTo` cuts off, whether or not the offset is a boundary. -/
theorem isFloor_iff : IsFloor source pos before ↔ before = upTo pos source := by
  have hfloor : IsFloor source pos (upTo pos source) := by
    refine ⟨upTo_front pos source, ⟨?_, ?_⟩, ?_⟩
    · exact isBoundary_iff.mpr ⟨_, upTo_front pos source, (size_utf8 _).symm⟩
    · rw [size_utf8, size_utf8]
      exact le_min (bytes_upTo_le pos source) (bytes_le_of_front (upTo_front pos source))
    · -- a boundary is the end of some front part, and no such part is longer
      intro n ⟨hboundary, hle⟩
      obtain ⟨front, hfront, rfl⟩ := isBoundary_iff.mp hboundary
      rw [size_utf8]
      exact bytes_le_of_front (front_le_upTo hfront (hle.trans (min_le_left _ _)))
  constructor
  · intro h
    have hsize := h.greatest.unique hfloor.greatest
    rw [size_utf8, size_utf8] at hsize
    exact eq_of_bytes_of_front h.front hfloor.front hsize
  · intro h
    rw [h]
    exact hfloor

end Text

namespace ReadError

/-- For any offset there is exactly one longest part of the source before it. The line and the column of an error there
are those that a fresh position reaches by running over that part. Running over a text in pieces, from any position,
leads to where running over the whole does. -/
theorem lineColumn_eq_tracked (e : ReadError) (source : Text) :
    (∃! before, Text.IsFloor source e.pos before) ∧
      (∀ before, Text.IsFloor source e.pos before →
        e.lineColumn source = ((Position.advance {} before).line, (Position.advance {} before).column)) ∧
        ∀ (p : Position) (pieces : List Text), pieces.foldl Position.advance p = p.advance pieces.flatten := by
  refine ⟨⟨Text.upTo e.pos source, Text.isFloor_iff.mpr rfl, fun _ => Text.isFloor_iff.mp⟩, ?_, ?_⟩
  · intro before hbefore
    rw [Text.isFloor_iff.mp hbefore, Position.advance_eq]
    rfl
  · intro p pieces
    exact List.foldl_flatten.symm

/-- An offset inside the second of two characters on the second line, which takes three bytes. -/
example : (ReadError.mk 5 (.unclosed "(")).lineColumn "a\né→\n".toList = (2, 2) := by decide

end ReadError

end SexprEdit
