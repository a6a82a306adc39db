import Mathlib.Tactic.SplitIfs
import SexprEdit.Session.Document

/-!
# Results of operations

Operations give a result or an error. Where several steps one after the other give a result, each of them does. And a
mutation looks at a document only, so whatever it fails for, it is never that a session is unknown.
-/

/-! ## Results -/

namespace Except

variable {ε α β : Type}

theorem exists_ok_of_bind {first : Except ε α} {second : α → Except ε β} {b : β} (h : (first >>= second) = .ok b) :
    ∃ a, first = .ok a ∧ second a = .ok b := by
  cases first with
  | ok a => exact ⟨a, rfl, h⟩
  | error e => simp [bind, Except.bind] at h

theorem ok_of_toOption {x : Except ε α} {a : α} (h : x.toOption = some a) : x = .ok a := by
  cases x with
  | ok b => exact congrArg Except.ok (Option.some.inj h)
  | error e => simp [Except.toOption] at h

end Except

namespace SexprEdit

/-! ## Errors -/

variable {α β : Type}

/-- The result is not that a session is unknown. -/
def Known (x : Except EditError α) : Prop :=
  ∀ id, x ≠ .error (.unknownSession id)

theorem known_ok (a : α) : Known (.ok a) := by
  simp [Known]

theorem Known.bind {x : Except EditError α} {f : α → Except EditError β} (hx : Known x) (hf : ∀ a, x = .ok a → Known (f a)) :
    Known (x >>= f) := by
  cases x with
  | ok a => exact hf a rfl
  | error e => exact fun id h => hx id (congrArg Except.error (Except.error.inj h))

theorem known_ofCursor (x : Except CursorError α) : Known (EditError.ofCursor x) := by
  cases x <;> simp [Known, EditError.ofCursor]

theorem known_ofQuery (query : Text) (options : MatchOptions) : Known (Matcher.ofQuery query options) := by
  rw [Known, Matcher.ofQuery]
  split <;> simp

theorem known_readFragment (fragment : Text) : Known (Tree.readFragment fragment) := by
  rw [Known, Tree.readFragment]
  split <;> simp

namespace Cursor

theorem known_renameHere (m : Matcher) (replacement : Text) (c : Cursor) : Known (c.renameHere m replacement) := by
  rw [renameHere]
  split
  · simp only
    split_ifs
    · exact known_ok _
    · split
      · simp [Known]
      · next renamed _ => cases c.replace (.atom none renamed) <;> simp [Known, EditError.ofCursor, Except.map]
    · exact known_ok _
  · exact known_ok _

theorem known_renameWithin (m : Matcher) (replacement : Text) (fuel : Nat) (c : Cursor) (count : Nat) :
    Known (renameWithin m replacement fuel c count) := by
  induction fuel generalizing c count with
  | zero => exact known_ok _
  | succ fuel ih =>
    refine (known_renameHere m replacement c).bind fun hit _ => ?_
    simp only
    split
    · exact ih _ _
    · exact known_ok _

theorem known_rename (m : Matcher) (replacement : Text) (c : Cursor) : Known (c.rename m replacement) := by
  refine (known_renameWithin m replacement _ _ _).bind fun result _ => ?_
  simp only
  split_ifs
  · exact known_ok _
  · split <;> exact known_ok _

theorem known_bindingSite (config : Config) (inner : Option Nat) (frames : List Frame) :
    Known (bindingSite config inner frames) := by
  fun_induction bindingSite config inner frames with
  | case5 => simp [Known]
  | case3 | case4 | case8 => assumption
  | _ => exact known_ok _

theorem known_extract (config : Config) (name : Text) (c : Cursor) : Known (c.extract config name) := by
  rw [extract]
  by_cases hroot : c.isRoot = true
  · rw [if_pos hroot]
    exact fun id h => by cases h
  · rw [if_neg hroot]
    simp only
    split
    · exact (known_bindingSite config none c.frames).bind fun site _ => known_ofCursor _
    · exact fun id h => by cases h

theorem known_thread (style : ThreadStyle) (c : Cursor) : Known (c.thread style) := by
  rw [thread]
  split
  · split_ifs
    · exact known_ofCursor _
    · simp [Known]
  · simp [Known]

end Cursor

theorem Matcher.known_findNext (m : Matcher) (c : Cursor) : Known (m.findNext c) := by
  rw [findNext]
  split
  · exact known_ofCursor _
  · simp [Known]

namespace Mutation

theorem known_moved (x : Except CursorError Cursor) : Known (moved x) := by
  cases x <;> simp [Known, moved]

theorem known_withFragment (fragment : Text) (edit : Draft → Except CursorError Cursor) :
    Known (withFragment fragment edit) :=
  (known_readFragment fragment).bind fun _ _ => known_moved _

/-- No mutation fails for want of a session. -/
theorem known_apply (config : Config) (c : Cursor) (m : Mutation) : Known (m.apply config c) := by
  cases m with
  | navigate _ | goto _ | remove => exact known_moved _
  | replace _ | insertBefore _ | insertAfter _ | insertChild _ | appendChild _ => exact known_withFragment _ _
  | rename query replacement options =>
    refine (known_ofQuery query options).bind fun matcher _ => ?_
    exact (c.known_rename matcher replacement).bind fun _ _ => known_ok _
  | extract name => exact (c.known_extract config name).bind fun _ _ => known_ok _
  | thread style => exact (c.known_thread style).bind fun _ _ => known_ok _
  | findNext query options =>
    refine (known_ofQuery query options).bind fun matcher _ => ?_
    exact (matcher.known_findNext c).bind fun _ _ => known_ok _

end Mutation

namespace Document

theorem known_apply (config : Config) (d : Document) (m : Mutation) : Known (d.apply config m) :=
  (m.known_apply config d.cursor).bind fun _ _ => known_ok _

theorem known_applyAll (config : Config) (d : Document) (count : Option Nat) (ms : List Mutation) :
    Known (d.applyAll config count ms) := by
  induction ms generalizing d count with
  | nil => exact known_ok _
  | cons m ms ih => exact (d.known_apply config m).bind fun _ _ => ih _ _

end Document

end SexprEdit
