import SexprEdit.Proofs.Session.Reachable

/-!
# Moves and the history

A commit is recorded unless the documents before and after it are known to be on one tree. That is known only if all
frames of both cursors are in step, and an edit can leave a frame out of step. A move right after such an edit is
recorded and drops what could be redone, though it changes nothing. From a cursor in step, moves are not recorded and
stay in step; going to a path brings a cursor in step again.
-/

namespace SexprEdit

/-! ## Cursors in step -/

namespace Cursor

variable {c c' : Cursor}

theorem inStep_root (c : Cursor) : c.root.inStep = true := by
  rw [inStep, root, frames_rootFrom]
  rfl

theorem inStep_goto {path : List Nat} (h : c.goto path = .ok c') : c'.inStep = true :=
  ((Walk.refl.follow h).inStep (inStep_root c)).1

theorem eq_of_rename_zero {m : Matcher} {replacement : Text} (h : c.rename m replacement = .ok (c', 0)) : c' = c := by
  rw [rename] at h
  obtain ⟨⟨last, total⟩, -, h⟩ := Except.exists_ok_of_bind h
  simp only at h
  split_ifs at h with hzero
  · exact (Prod.mk.inj (Except.ok.inj h)).1.symm
  · split at h
    · exact absurd (Prod.mk.inj (Except.ok.inj h)).2 hzero
    · exact absurd (Prod.mk.inj (Except.ok.inj h)).2 hzero

end Cursor

/-! ## Mutations that move -/

namespace Mutation

/-- Whether a mutation only moves the cursor. -/
def isMove : Mutation → Bool
  | navigate _ | goto _ | findNext _ _ => true
  | _ => false

/-- Whether a mutation moves the cursor from the root down. -/
def isJump : Mutation → Bool
  | navigate .root | goto _ | findNext _ _ => true
  | _ => false

variable {config : Config} {c : Cursor} {applied : Applied} {m : Mutation}

theorem walk_of_isMove (h : m.apply config c = .ok applied) (hmove : m.isMove = true) : c.Walk applied.cursor := by
  cases m with
  | navigate direction => exact Direction.walk (ok_of_moved h)
  | goto path => exact Cursor.Walk.refl.goto (ok_of_moved h)
  | findNext query options =>
    obtain ⟨matcher, -, h⟩ := Except.exists_ok_of_bind h
    obtain ⟨cursor, hcursor, h⟩ := Except.exists_ok_of_bind h
    obtain rfl := Except.ok.inj h
    exact Cursor.Walk.findNext hcursor
  | _ => simp [isMove] at hmove

/-- Moves and renaming without a match are walks. -/
theorem walk_of_move (h : m.apply config c = .ok applied)
    (hmove : m.isMove = true ∨ applied.replacements = some 0) : c.Walk applied.cursor := by
  rcases hmove with hmove | hzero
  · exact walk_of_isMove h hmove
  · rcases apply_eq_ok h with ⟨hnone, -⟩ | ⟨matcher, replacement, count, hrename, hcount⟩ | ⟨hnone, -⟩
    · rw [hnone] at hzero
      cases hzero
    · obtain rfl : count = 0 := Option.some.inj (hcount.symm.trans hzero)
      rw [Cursor.eq_of_rename_zero hrename]
      exact .refl
    · rw [hnone] at hzero
      cases hzero

theorem inStep_of_isJump (h : m.apply config c = .ok applied) (hjump : m.isJump = true) : applied.cursor.inStep = true := by
  cases m with
  | navigate direction =>
    cases direction with
    | root =>
      rw [← Except.ok.inj (ok_of_moved h)]
      exact Cursor.inStep_root c
    | _ => simp [isJump] at hjump
  | goto path => exact Cursor.inStep_goto (ok_of_moved h)
  | findNext query options =>
    obtain ⟨matcher, -, h⟩ := Except.exists_ok_of_bind h
    obtain ⟨cursor, hcursor, h⟩ := Except.exists_ok_of_bind h
    obtain rfl := Except.ok.inj h
    obtain ⟨path, hgoto⟩ := Cursor.exists_goto_of_findNext hcursor
    exact Cursor.inStep_goto hgoto
  | _ => simp [isJump] at hjump

end Mutation

/-! ## What is recorded -/

/-- How many steps can be undone and how many redone. -/
def Session.levels (s : Session) : Nat × Nat :=
  (s.history.past.length, s.history.future.length)

namespace Registry

variable {r : Registry} {id : String} {s : Session} {m : Mutation} {report : CommitReport}

theorem apply_eq_ok (hs : r.find? id = some s) (hok : (r.apply id m).1 = .ok report) :
    ∃ applied, m.apply r.config (s.current id).cursor = .ok applied ∧ report.replacements = applied.replacements ∧
      (r.apply id m).2.find? id = some ((s.commit ⟨applied.cursor, s.document.origin⟩).touch r.now) := by
  rw [Registry.apply, onSession_of_find? hs] at hok ⊢
  cases happly : m.apply r.config (s.current id).cursor with
  | error e =>
    have hdocument : (s.current id).apply r.config m = .error e := by rw [Document.apply, happly]; rfl
    rw [hdocument] at hok
    cases hok
  | ok applied =>
    have hdocument : (s.current id).apply r.config m =
        .ok (⟨applied.cursor, s.document.origin⟩, applied.replacements) := by
      rw [Document.apply, happly]
      rfl
    rw [hdocument] at hok ⊢
    obtain rfl := Except.ok.inj hok
    exact ⟨applied, rfl, rfl, find?_put hs⟩

/-- In every session a move, or a renaming without a match, counts as one commit and leaves the tree as it is. It is
recorded exactly if the cursor was out of step. A cursor in step stays in step, and a jump brings it in step. -/
theorem apply_move_history {config : Config} {now : Nat}
    (hreach : Reaches Document.Steady { config := config, now := now } r) (hs : r.find? id = some s)
    (hok : (r.apply id m).1 = .ok report) (hmove : m.isMove = true ∨ report.replacements = some 0) :
    ∃ s', (r.apply id m).2.find? id = some s' ∧ s'.version = s.version + 1 ∧
      s'.document.origin = s.document.origin ∧ s'.document.cursor.tree.plain = s.document.cursor.tree.plain ∧
        s'.history = (if s.document.cursor.inStep then s.history else s.history.record s.document) ∧
          (s.document.cursor.inStep = true ∨ m.isJump = true → s'.document.cursor.inStep = true) := by
  obtain ⟨applied, happly, hcount, hfind⟩ := apply_eq_ok hs hok
  rw [hcount] at hmove
  have hwalk := Mutation.walk_of_move happly hmove
  have hsteady : s.Steady := (hreach.every (Session.invariant_steady config.historyLimit) ⟨rfl, by simp⟩).of_find? hs
  have hcurrent := (hsteady.current id).stamps
  refine ⟨_, hfind, rfl, rfl, ?_, ?_, ?_⟩
  · have hwhole : applied.cursor.whole.plain = s.document.cursor.whole.plain := hwalk.plain_whole hcurrent
    have hdocument : s.document.cursor.Steady := hsteady s.document List.mem_cons_self
    exact (hwalk.steady hcurrent).plain_tree.trans (hwhole.trans hdocument.stamps.plain_tree.symm)
  · have hsame : s.document.cursor.sameTree applied.cursor = s.document.cursor.inStep :=
      (Cursor.sameTree_drawing _).symm.trans hwalk.sameTree
    show (if !s.document.cursor.sameTree applied.cursor then _ else _) = _
    rw [hsame]
    cases s.document.cursor.inStep <;> rfl
  · rintro (hin | hjump)
    · exact (hwalk.inStep hin).1
    · exact Mutation.inStep_of_isJump happly hjump

theorem exists_of_move {β : Type} (id : String) (m : Mutation) (view : Session → β) (before after : β)
    (hreach : Reaches Document.Steady {} r)
    (hbefore : (r.find? id).map view = some before) (hok : (r.apply id m).1.toOption.isSome = true)
    (hafter : ((r.apply id m).2.find? id).map view = some after) :
    ∃ r s s' report, Reaches Document.Steady {} r ∧ r.find? id = some s ∧ view s = before ∧ (r.apply id m).1 = .ok report ∧
      (r.apply id m).2.find? id = some s' ∧ view s' = after := by
  obtain ⟨s, hs, hview⟩ := Option.map_eq_some_iff.mp hbefore
  obtain ⟨s', hs', hview'⟩ := Option.map_eq_some_iff.mp hafter
  cases hreport : (r.apply id m).1 with
  | ok report => exact ⟨r, s, s', report, hreach, hs, hview, hreport, hs', hview'⟩
  | error e => simp [hreport, Except.toOption] at hok

/-- The first move after an edit two lists deep is recorded, though the tree is the same; the next is not. -/
theorem apply_move_history_in_step :
    ∃ r s s', Reaches Document.Steady {} r ∧ r.find? "a" = some s ∧ s.levels = (2, 0) ∧
      (r.apply "a" (.navigate .right)).2.find? "a" = some s' ∧ s'.history = s.history := by
  obtain ⟨r, s, s', report, hreach, hs, hstate, hok, hs', -⟩ :=
    exists_of_move "a" (.navigate .right) (fun s => (s.levels, s.document.cursor.inStep)) ((2, 0), true) ((2, 0), true)
      ((((Reaches.refl.create "a" "((a d))".toList).apply "a" (.goto [0, 0, 0])).apply "a" (.replace "b".toList)).apply
        "a" (.goto [0, 0, 0]))
      (by decide +kernel) (by decide +kernel) (by decide +kernel)
  obtain ⟨hlevels, hin⟩ := Prod.mk.inj hstate
  obtain ⟨s', hfind, -, -, -, hhistory, -⟩ := apply_move_history hreach hs hok (.inl rfl)
  rw [hin] at hhistory
  exact ⟨r, s, s', hreach, hs, hlevels, hfind, hhistory⟩

/-- An edit two lists deep, another one, and the second one undone: a move then takes up a step of the history and drops
the one that could be redone. -/
theorem apply_move_drops_redo :
    ∃ r s s' report, Reaches Document.Steady {} r ∧ r.find? "a" = some s ∧ s.levels = (1, 1) ∧
      (r.apply "a" (.navigate .right)).1 = .ok report ∧ (r.apply "a" (.navigate .right)).2.find? "a" = some s' ∧
        s'.levels = (2, 0) :=
  exists_of_move "a" (.navigate .right) Session.levels (1, 1) (2, 0)
    (((((Reaches.refl.create "a" "((a d))".toList).apply "a" (.goto [0, 0, 0])).apply "a" (.replace "b".toList)).apply
      "a" (.replace "e".toList)).undo "a")
    (by decide +kernel) (by decide +kernel) (by decide +kernel)

end Registry

end SexprEdit
