import Mathlib.Data.List.TakeWhile
import SexprEdit.Proofs.Cursor.Walk

/-!
# What a successful edit gives

One lemma for each edit: where it was possible, and the cursor that it gave. Everything else about edits is derived from
these.
-/

namespace SexprEdit

open Node

namespace Cursor

open SexprEdit.Frame (checkVariadic separator)

variable {c c' : Cursor} {d : Draft} {n : Cell} {later : Stamp}

theorem isForm_of_checkForm {ι : Type} {m : Node ι} {u : Unit} (h : checkForm m = .ok u) : m.isForm = true := by
  by_cases hform : m.isForm = true
  · exact hform
  · rw [checkForm, if_neg hform] at h
    cases h

theorem ne_mark_of_checkVariadic {kind : Kind} {u : Unit} (h : checkVariadic kind = .ok u) : ∀ m, kind ≠ .mark m := by
  rintro m rfl
  cases h

theorem replace_eq_ok (hn : Node.stamp c.fresh d = (n, later)) (h : c.replace d = .ok c') :
    d.isForm = true ∧
      ((c.frames = [] ∧ n.isRoot = true ∧ c' = ⟨n, [], later⟩) ∨
        (c.frames = [] ∧ n.isRoot = false ∧ c' = ⟨.composite later .root [n], [], later + 1⟩) ∨
          ∃ f outer, c.frames = f :: outer ∧
            c' = ⟨n, Frame.keepApartOutside n.tailText (later + 3) (f.replaceFocus n later :: outer), later + 5⟩) := by
  unfold Cursor.replace at h
  obtain ⟨_, hform, h⟩ := Except.exists_ok_of_bind h
  refine ⟨isForm_of_checkForm hform, ?_⟩
  simp only [adopt, hn] at h
  cases hframes : c.frames with
  | nil =>
    simp only [hframes] at h
    by_cases hroot : n.isRoot = true
    · rw [if_pos hroot] at h
      exact .inl ⟨rfl, hroot, (Except.ok.inj h).symm⟩
    · rw [if_neg hroot] at h
      exact .inr (.inl ⟨rfl, Bool.eq_false_iff.mpr hroot, (Except.ok.inj h).symm⟩)
  | cons f outer =>
    rw [hframes] at h
    exact .inr (.inr ⟨f, outer, rfl, (Except.ok.inj h).symm⟩)

theorem insertBefore_eq_ok (hn : Node.stamp c.fresh d = (n, later)) (h : c.insertBefore d = .ok c') :
    d.isForm = true ∧ ∃ f outer, c.frames = f :: outer ∧ (∀ m, f.kind ≠ .mark m) ∧
      c' = ⟨c.node, ⟨later, f.kind, f.before ++ blankIf (needsGap f.kind f.before.getLast? (some n)) (later + 1) ++
        [n, separator f.kind f.before (later + 2)], c.node, f.after⟩ :: outer, later + 3⟩ := by
  unfold Cursor.insertBefore at h
  obtain ⟨_, hform, h⟩ := Except.exists_ok_of_bind h
  simp only [adopt, hn] at h
  cases hframes : c.frames with
  | nil =>
    rw [hframes] at h
    cases h
  | cons f outer =>
    rw [hframes] at h
    obtain ⟨_, hvariadic, h⟩ := Except.exists_ok_of_bind h
    exact ⟨isForm_of_checkForm hform, f, outer, rfl, ne_mark_of_checkVariadic hvariadic, (Except.ok.inj h).symm⟩

theorem insertAfter_eq_ok (hn : Node.stamp c.fresh d = (n, later)) (h : c.insertAfter d = .ok c') :
    d.isForm = true ∧ ∃ f outer, c.frames = f :: outer ∧ (∀ m, f.kind ≠ .mark m) ∧
      c' = ⟨c.node, ⟨later, f.kind, f.before, c.node, separator f.kind f.before (later + 2) :: n ::
        (blankIf (needsGap f.kind (some n) f.after.head?) (later + 1) ++ f.after)⟩ :: outer, later + 3⟩ := by
  unfold Cursor.insertAfter at h
  obtain ⟨_, hform, h⟩ := Except.exists_ok_of_bind h
  simp only [adopt, hn] at h
  cases hframes : c.frames with
  | nil =>
    rw [hframes] at h
    cases h
  | cons f outer =>
    rw [hframes] at h
    obtain ⟨_, hvariadic, h⟩ := Except.exists_ok_of_bind h
    exact ⟨isForm_of_checkForm hform, f, outer, rfl, ne_mark_of_checkVariadic hvariadic, (Except.ok.inj h).symm⟩

theorem insertChild_eq_ok (hn : Node.stamp c.fresh d = (n, later)) (h : c.insertChild d = .ok c') :
    d.isForm = true ∧ ∃ label kind old new, c.node = .composite label kind old ∧ (∀ m, kind ≠ .mark m) ∧
      c' = ⟨.composite later kind new, c.frames, later + 2⟩ ∧
        ((∃ cut, cutAtFirst? old = some cut ∧
            new = cut.before ++ [n, separator kind cut.before (later + 1)] ++ cut.focus :: cut.after) ∨
          cutAtFirst? old = none ∧ new = n :: old) := by
  unfold Cursor.insertChild at h
  obtain ⟨_, hform, h⟩ := Except.exists_ok_of_bind h
  simp only [adopt, hn] at h
  cases hnode : c.node with
  | composite label kind children =>
    rw [hnode] at h
    obtain ⟨_, hvariadic, h⟩ := Except.exists_ok_of_bind h
    refine ⟨isForm_of_checkForm hform, label, kind, children, _, rfl, ne_mark_of_checkVariadic hvariadic,
      (Except.ok.inj h).symm, ?_⟩
    cases cutAtFirst? children with
    | none => exact .inr ⟨rfl, rfl⟩
    | some cut => exact .inl ⟨cut, rfl, rfl⟩
  | _ =>
    rw [hnode] at h
    cases h

theorem appendChild_eq_ok (hn : Node.stamp c.fresh d = (n, later)) (h : c.appendChild d = .ok c') :
    d.isForm = true ∧ ∃ label kind old new, c.node = .composite label kind old ∧ (∀ m, kind ≠ .mark m) ∧
      c' = ⟨.composite later kind new, c.frames, later + 2⟩ ∧
        ((∃ cut, cutAtLast? old = some cut ∧
            new = cut.before ++ [cut.focus, separator kind cut.before (later + 1), n] ++ cut.after) ∨
          cutAtLast? old = none ∧ new = n :: old) := by
  unfold Cursor.appendChild at h
  obtain ⟨_, hform, h⟩ := Except.exists_ok_of_bind h
  simp only [adopt, hn] at h
  cases hnode : c.node with
  | composite label kind children =>
    rw [hnode] at h
    obtain ⟨_, hvariadic, h⟩ := Except.exists_ok_of_bind h
    refine ⟨isForm_of_checkForm hform, label, kind, children, _, rfl, ne_mark_of_checkVariadic hvariadic,
      (Except.ok.inj h).symm, ?_⟩
    cases cutAtLast? children with
    | none => exact .inr ⟨rfl, rfl⟩
    | some cut => exact .inl ⟨cut, rfl, rfl⟩
  | _ =>
    rw [hnode] at h
    cases h

/-! ## Removal -/

theorem exists_dropBlanksLeft (ns : List Cell) :
    ∃ blanks, ns = blanks ++ dropBlanksLeft ns ∧ ∀ n ∈ blanks, n.isWhitespace = true :=
  ⟨ns.takeWhile isWhitespace, (List.takeWhile_append_dropWhile).symm, fun _ => List.mem_takeWhile_imp⟩

theorem exists_dropBlanksRight (ns : List Cell) :
    ∃ blanks, ns = dropBlanksRight ns ++ blanks ∧ ∀ n ∈ blanks, n.isWhitespace = true := by
  obtain ⟨blanks, hns, hblank⟩ := exists_dropBlanksLeft ns.reverse
  refine ⟨blanks.reverse, ?_, fun n hn => hblank n (List.mem_reverse.mp hn)⟩
  have hreverse := congrArg List.reverse hns
  rwa [List.reverse_reverse, List.reverse_append] at hreverse

/-- The siblings of a removed node that are kept: all but blanks next to it. -/
structure Trims (f : Frame) (before after : List Cell) : Prop where
  left : ∃ blanks, f.before = before ++ blanks ∧ ∀ n ∈ blanks, n.isWhitespace = true
  right : ∃ blanks, f.after = blanks ++ after ∧ ∀ n ∈ blanks, n.isWhitespace = true

end Cursor

namespace Frame

/-- The siblings before the child that stay when it is removed: blanks next to it go with it, unless only forms after
it are left. -/
def keptBefore (f : Frame) : List Cell :=
  if f.before.any isForm || !f.after.any isForm then dropBlanksRight f.before else f.before

/-- The siblings after the child that stay when it is removed: blanks next to it go with it if no form is before it. -/
def keptAfter (f : Frame) : List Cell :=
  if !f.before.any isForm then dropBlanksLeft f.after else f.after

theorem trims (f : Frame) : Cursor.Trims f f.keptBefore f.keptAfter := by
  constructor
  · rw [keptBefore]
    split_ifs
    · exact Cursor.exists_dropBlanksRight f.before
    · exact ⟨[], by simp, by simp⟩
  · rw [keptAfter]
    split_ifs
    · exact Cursor.exists_dropBlanksLeft f.after
    · exact ⟨[], by simp, by simp⟩

end Frame

namespace Cursor

variable {c c' : Cursor}

/-- The cursor goes to the form after, else to the one before, else to the composite around. -/
theorem remove_eq_ok (h : c.remove = .ok c') :
    ∃ f outer rest, c.frames = f :: outer ∧ (∀ m, f.kind ≠ .mark m) ∧
      rest = blankIf (needsGap f.kind f.keptBefore.getLast? f.keptAfter.head?) (c.fresh + 1) ++ f.keptAfter ∧
        ((∃ cut, cutAtFirst? rest = some cut ∧
            c' = ⟨cut.focus, ⟨c.fresh, f.kind, f.keptBefore ++ cut.before, cut.focus, cut.after⟩ :: outer, c.fresh + 2⟩) ∨
          (cutAtFirst? rest = none ∧ ∃ cut, cutAtLast? f.keptBefore = some cut ∧
            c' = ⟨cut.focus, ⟨c.fresh, f.kind, cut.before, cut.focus, cut.after ++ rest⟩ :: outer, c.fresh + 2⟩) ∨
          cutAtFirst? rest = none ∧ cutAtLast? f.keptBefore = none ∧
            c' = ⟨.composite c.fresh f.kind (f.keptBefore ++ rest), outer, c.fresh + 2⟩) := by
  unfold Cursor.remove at h
  cases hframes : c.frames with
  | nil =>
    rw [hframes] at h
    cases h
  | cons f outer =>
    rw [hframes] at h
    obtain ⟨_, hvariadic, h⟩ := Except.exists_ok_of_bind h
    simp only [← Frame.keptBefore.eq_1, ← Frame.keptAfter.eq_1] at h
    refine ⟨f, outer, _, rfl, ne_mark_of_checkVariadic hvariadic, rfl, ?_⟩
    generalize blankIf (needsGap f.kind f.keptBefore.getLast? f.keptAfter.head?) (c.fresh + 1) ++ f.keptAfter = rest at h ⊢
    cases hfirst : cutAtFirst? rest with
    | some cut =>
      simp only [hfirst] at h
      exact .inl ⟨cut, rfl, (Except.ok.inj h).symm⟩
    | none =>
      cases hlast : cutAtLast? f.keptBefore with
      | some cut =>
        simp only [hfirst, hlast] at h
        exact .inr (.inl ⟨rfl, cut, rfl, (Except.ok.inj h).symm⟩)
      | none =>
        simp only [hfirst, hlast] at h
        exact .inr (.inr ⟨rfl, rfl, (Except.ok.inj h).symm⟩)

end Cursor

end SexprEdit
