import SexprEdit.Proofs.Edit.Errors

/-!
# Walks

Every move of a cursor is made of steps of three kinds: into a child of the current node, out to the composite around
it, and the settling of the innermost frame. `Cursor.Walk` is their closure, so that a fact about moves has to be shown
for these three steps only.
-/

namespace SexprEdit

/-! ## Cuts -/

namespace Node

variable {ι : Type}

/-- What a cut of siblings at a form is. -/
structure CutsAtForm (ns : List (Node ι)) (cut : Cut (Node ι)) : Prop where
  whole : ns = cut.before ++ cut.focus :: cut.after
  form : cut.focus.isForm = true

theorem CutsAtForm.push {ns : List (Node ι)} {cut : Cut (Node ι)} (h : CutsAtForm ns cut) (n : Node ι) :
    CutsAtForm (n :: ns) (cut.push n) :=
  ⟨congrArg (n :: ·) h.whole, h.form⟩

theorem cutAtFirst?_eq_some {ns : List (Node ι)} {cut : Cut (Node ι)} (h : cutAtFirst? ns = some cut) :
    CutsAtForm ns cut ∧ ∀ n ∈ cut.before, n.isForm = false := by
  induction ns generalizing cut with
  | nil => simp [cutAtFirst?] at h
  | cons n ns ih =>
    rw [cutAtFirst?] at h
    by_cases hn : n.isForm = true
    · rw [if_pos hn] at h
      obtain rfl := Option.some.inj h
      exact ⟨⟨rfl, hn⟩, by simp⟩
    · rw [if_neg hn] at h
      obtain ⟨inner, hinner, rfl⟩ := Option.map_eq_some_iff.mp h
      obtain ⟨hcut, hbefore⟩ := ih hinner
      exact ⟨hcut.push n, List.forall_mem_cons.mpr ⟨by simpa using hn, hbefore⟩⟩

theorem cutAtFirst?_eq_none {ns : List (Node ι)} (h : cutAtFirst? ns = none) : ∀ n ∈ ns, n.isForm = false := by
  induction ns with
  | nil => simp
  | cons n ns ih =>
    rw [cutAtFirst?] at h
    by_cases hn : n.isForm = true
    · simp [hn] at h
    · rw [if_neg hn, Option.map_eq_none_iff] at h
      exact List.forall_mem_cons.mpr ⟨by simpa using hn, ih h⟩

theorem cutAtForm?_eq_some {k : Nat} {ns : List (Node ι)} {cut : Cut (Node ι)} (h : cutAtForm? k ns = some cut) :
    CutsAtForm ns cut := by
  induction ns generalizing k cut with
  | nil => simp [cutAtForm?] at h
  | cons n ns ih =>
    by_cases hn : n.isForm = true
    · cases k with
      | zero =>
        obtain rfl : ⟨[], n, ns⟩ = cut := by simpa [cutAtForm?, hn] using h
        exact ⟨rfl, hn⟩
      | succ k =>
        obtain ⟨inner, hinner, rfl⟩ : ∃ inner, cutAtForm? k ns = some inner ∧ inner.push n = cut := by
          simpa [cutAtForm?, hn] using h
        exact (ih hinner).push n
    · obtain ⟨inner, hinner, rfl⟩ : ∃ inner, cutAtForm? k ns = some inner ∧ inner.push n = cut := by
        cases k <;> simpa [cutAtForm?, hn] using h
      exact (ih hinner).push n

theorem cutAtLast?_cases (ns : List (Node ι)) :
    (cutAtLast? ns = none ∧ ∀ n ∈ ns, n.isForm = false) ∨
      ∃ cut, cutAtLast? ns = some cut ∧ CutsAtForm ns cut ∧ ∀ n ∈ cut.after, n.isForm = false := by
  induction ns with
  | nil => exact .inl ⟨rfl, by simp⟩
  | cons n ns ih =>
    rcases ih with ⟨hnone, hns⟩ | ⟨cut, hsome, hcut, hafter⟩
    · by_cases hn : n.isForm = true
      · exact .inr ⟨⟨[], n, ns⟩, by simp [cutAtLast?, hnone, hn], ⟨rfl, hn⟩, hns⟩
      · refine .inl ⟨by simp [cutAtLast?, hnone, hn], ?_⟩
        exact List.forall_mem_cons.mpr ⟨by simpa using hn, hns⟩
    · exact .inr ⟨cut.push n, by simp [cutAtLast?, hsome], hcut.push n, hafter⟩

theorem cutAtLast?_eq_some {ns : List (Node ι)} {cut : Cut (Node ι)} (h : cutAtLast? ns = some cut) :
    CutsAtForm ns cut ∧ ∀ n ∈ cut.after, n.isForm = false := by
  rcases cutAtLast?_cases ns with ⟨hnone, -⟩ | ⟨other, hsome, hcut⟩
  · rw [hnone] at h
    simp at h
  · rw [hsome] at h
    obtain rfl := Option.some.inj h
    exact hcut

theorem cutAtLast?_eq_none {ns : List (Node ι)} (h : cutAtLast? ns = none) : ∀ n ∈ ns, n.isForm = false := by
  rcases cutAtLast?_cases ns with ⟨-, hns⟩ | ⟨other, hsome, -⟩
  · exact hns
  · rw [hsome] at h
    simp at h

end Node

/-! ## Moves as walks -/

namespace Cursor

/-- The second cursor is reached from the first by moves. -/
inductive Walk (c : Cursor) : Cursor → Prop where
  | refl : Walk c c
  | enter {g : Frame} {outer : List Frame} {fresh : Stamp} (h : Walk c ⟨g.parent, outer, fresh⟩)
      (hform : g.focus.isForm = true) : Walk c ⟨g.focus, g :: outer, fresh⟩
  | leave {n : Cell} {f : Frame} {outer : List Frame} {fresh : Stamp} (h : Walk c ⟨n, f :: outer, fresh⟩) :
      Walk c ⟨(f.settle n fresh).1.parent, outer, (f.settle n fresh).2⟩
  | settle {n : Cell} {f : Frame} {outer : List Frame} {fresh : Stamp} (h : Walk c ⟨n, f :: outer, fresh⟩) :
      Walk c ⟨n, (f.settle n fresh).1 :: outer, (f.settle n fresh).2⟩

variable {c d e : Cursor}

theorem Walk.trans (hcd : Walk c d) (hde : Walk d e) : Walk c e := by
  induction hde with
  | refl => exact hcd
  | enter _ hform ih => exact .enter ih hform
  | leave _ ih => exact .leave ih
  | settle _ ih => exact .settle ih

theorem settle_siblings (f : Frame) (n : Cell) (fresh : Stamp) :
    (f.settle n fresh).1.before = f.before ∧ (f.settle n fresh).1.after = f.after := by
  rw [Frame.settle]
  by_cases hstep : f.inStep n = true
  · rw [if_pos hstep]
    exact ⟨rfl, rfl⟩
  · rw [if_neg hstep]
    exact ⟨rfl, rfl⟩

theorem Walk.down (h : Walk c d) (hmove : d.down = .ok e) : Walk c e := by
  obtain ⟨node, frames, fresh⟩ := d
  cases node with
  | composite label kind children =>
    rw [Cursor.down] at hmove
    cases hcut : Node.cutAtFirst? children with
    | none => simp [hcut] at hmove
    | some cut =>
      obtain ⟨⟨hchildren, hform⟩, -⟩ := Node.cutAtFirst?_eq_some hcut
      simp only [hcut, Except.ok.injEq] at hmove
      subst hmove hchildren
      exact h.enter (g := ⟨label, kind, cut.before, cut.focus, cut.after⟩) hform
  | _ => simp [Cursor.down] at hmove

theorem Walk.up (h : Walk c d) (hmove : d.up = .ok e) : Walk c e := by
  obtain ⟨node, frames, fresh⟩ := d
  cases frames with
  | nil => simp [Cursor.up] at hmove
  | cons f outer =>
    obtain rfl := Except.ok.inj hmove
    exact h.leave

theorem Walk.toRight {n : Cell} {f : Frame} {outer : List Frame} {fresh : Stamp} (h : Walk c ⟨n, f :: outer, fresh⟩)
    {cut : Cut Cell} (hcut : Node.CutsAtForm f.after cut) :
    Walk c ⟨cut.focus, (f.settle n fresh).1.toRight cut :: outer, (f.settle n fresh).2⟩ := by
  have hsame : ((f.settle n fresh).1.toRight cut).parent = (f.settle n fresh).1.parent := by
    simp [Frame.parent, Frame.toRight, (settle_siblings f n fresh).2, hcut.whole]
  refine Walk.enter (g := (f.settle n fresh).1.toRight cut) ?_ hcut.form
  rw [hsame]
  exact h.leave

theorem Walk.toLeft {n : Cell} {f : Frame} {outer : List Frame} {fresh : Stamp} (h : Walk c ⟨n, f :: outer, fresh⟩)
    {cut : Cut Cell} (hcut : Node.CutsAtForm f.before cut) :
    Walk c ⟨cut.focus, (f.settle n fresh).1.toLeft cut :: outer, (f.settle n fresh).2⟩ := by
  have hsame : ((f.settle n fresh).1.toLeft cut).parent = (f.settle n fresh).1.parent := by
    simp [Frame.parent, Frame.toLeft, (settle_siblings f n fresh).1, hcut.whole]
  refine Walk.enter (g := (f.settle n fresh).1.toLeft cut) ?_ hcut.form
  rw [hsame]
  exact h.leave

theorem Walk.right (h : Walk c d) (hmove : d.right = .ok e) : Walk c e := by
  obtain ⟨node, frames, fresh⟩ := d
  cases frames with
  | nil => simp [Cursor.right] at hmove
  | cons f outer =>
    rw [Cursor.right] at hmove
    cases hcut : Node.cutAtFirst? f.after with
    | none => simp [hcut] at hmove
    | some cut =>
      simp only [hcut, Except.ok.injEq] at hmove
      subst hmove
      exact h.toRight (Node.cutAtFirst?_eq_some hcut).1

theorem Walk.left (h : Walk c d) (hmove : d.left = .ok e) : Walk c e := by
  obtain ⟨node, frames, fresh⟩ := d
  cases frames with
  | nil => simp [Cursor.left] at hmove
  | cons f outer =>
    rw [Cursor.left] at hmove
    cases hcut : Node.cutAtLast? f.before with
    | none => simp [hcut] at hmove
    | some cut =>
      simp only [hcut, Except.ok.injEq] at hmove
      subst hmove
      exact h.toLeft (Node.cutAtLast?_eq_some hcut).1

theorem Walk.leftmost (h : Walk c d) : Walk c d.leftmost := by
  obtain ⟨node, frames, fresh⟩ := d
  cases frames with
  | nil => exact h
  | cons f outer =>
    rw [Cursor.leftmost]
    simp only
    cases hcut : Node.cutAtFirst? f.before with
    | none => exact h.settle
    | some cut => exact h.toLeft (Node.cutAtFirst?_eq_some hcut).1

theorem Walk.rightmost (h : Walk c d) : Walk c d.rightmost := by
  obtain ⟨node, frames, fresh⟩ := d
  cases frames with
  | nil => exact h
  | cons f outer =>
    rw [Cursor.rightmost]
    simp only
    cases hcut : Node.cutAtLast? f.after with
    | none => exact h.settle
    | some cut => exact h.toRight (Node.cutAtLast?_eq_some hcut).1

/-! ## Climbing and walking on -/

theorem frames_rootFrom (n : Cell) (fresh : Stamp) (frames : List Frame) : (rootFrom n fresh frames).frames = [] := by
  induction frames generalizing n fresh with
  | nil => rfl
  | cons f outer ih => exact ih _ _

theorem Walk.rootFrom {n : Cell} {frames : List Frame} {fresh : Stamp} (h : Walk c ⟨n, frames, fresh⟩) :
    Walk c (Cursor.rootFrom n fresh frames) := by
  induction frames generalizing n fresh with
  | nil => exact h
  | cons f outer ih => exact ih h.leave

theorem Walk.root (h : Walk c d) : Walk c d.root :=
  Walk.rootFrom h

theorem Walk.followingFrom {n : Cell} {frames : List Frame} {fresh : Stamp} (h : Walk c ⟨n, frames, fresh⟩)
    (hmove : Cursor.followingFrom n fresh frames = some e) : Walk c e := by
  induction frames generalizing n fresh with
  | nil => simp [Cursor.followingFrom] at hmove
  | cons f outer ih =>
    rw [Cursor.followingFrom] at hmove
    cases hcut : Node.cutAtFirst? f.after with
    | none =>
      simp only [hcut] at hmove
      exact ih h.leave hmove
    | some cut =>
      simp only [hcut, Option.some.injEq] at hmove
      subst hmove
      exact h.toRight (Node.cutAtFirst?_eq_some hcut).1

theorem Walk.next? (h : Walk c d) (hmove : d.next? = some e) : Walk c e := by
  rw [Cursor.next?] at hmove
  cases hdown : d.down with
  | ok child =>
    simp only [hdown, Option.some.injEq] at hmove
    subst hmove
    exact h.down hdown
  | error _ =>
    simp only [hdown] at hmove
    exact Walk.followingFrom h hmove

theorem Walk.descendWithin (h : Walk c d) (fuel : Nat) : Walk c (Cursor.descendWithin fuel d) := by
  induction fuel generalizing d with
  | zero => exact h
  | succ fuel ih =>
    rw [Cursor.descendWithin]
    cases hdown : d.down with
    | ok child => exact ih (h.down hdown).rightmost
    | error _ => exact h

theorem Walk.prev? (h : Walk c d) (hmove : d.prev? = some e) : Walk c e := by
  rw [Cursor.prev?] at hmove
  cases hleft : d.left with
  | ok sibling =>
    simp only [hleft, Option.some.injEq] at hmove
    subst hmove
    exact (h.left hleft).descendWithin _
  | error _ =>
    cases hup : d.up with
    | ok parent =>
      simp only [hleft, hup, Except.toOption, Option.some.injEq] at hmove
      subst hmove
      exact h.up hup
    | error _ => simp [hleft, hup, Except.toOption] at hmove

theorem Walk.rightBy (h : Walk c d) {k : Nat} (hmove : Cursor.rightBy k d = .ok e) : Walk c e := by
  induction k generalizing d with
  | zero =>
    obtain rfl := Except.ok.inj hmove
    exact h
  | succ k ih =>
    rw [Cursor.rightBy] at hmove
    obtain ⟨next, hright, hmove⟩ := Except.exists_ok_of_bind hmove
    exact ih (h.right hright) hmove

theorem Walk.follow (h : Walk c d) {path : List Nat} (hmove : d.follow path = .ok e) : Walk c e := by
  induction path generalizing d with
  | nil =>
    obtain rfl := Except.ok.inj hmove
    exact h
  | cons k path ih =>
    rw [Cursor.follow] at hmove
    obtain ⟨first, hdown, hmove⟩ := Except.exists_ok_of_bind hmove
    obtain ⟨next, hright, hmove⟩ := Except.exists_ok_of_bind hmove
    exact ih ((h.down hdown).rightBy hright) hmove

theorem Walk.goto (h : Walk c d) {path : List Nat} (hmove : d.goto path = .ok e) : Walk c e :=
  h.root.follow hmove

theorem Walk.upBy (h : Walk c d) {k : Nat} (hmove : Cursor.upBy k d = .ok e) : Walk c e := by
  induction k generalizing d with
  | zero =>
    obtain rfl := Except.ok.inj hmove
    exact h
  | succ k ih =>
    rw [Cursor.upBy] at hmove
    obtain ⟨next, hup, hmove⟩ := Except.exists_ok_of_bind hmove
    exact ih (h.up hup) hmove

theorem ok_of_ofCursor {α : Type} {x : Except CursorError α} {a : α} (h : EditError.ofCursor x = .ok a) : x = .ok a := by
  cases x with
  | ok b => exact congrArg Except.ok (Except.ok.inj h)
  | error e => simp [EditError.ofCursor] at h

theorem exists_goto_of_findNext {m : Matcher} (hmove : m.findNext c = .ok e) : ∃ path, c.goto path = .ok e := by
  rw [Matcher.findNext] at hmove
  split at hmove
  · exact ⟨_, ok_of_ofCursor hmove⟩
  · simp at hmove

theorem Walk.findNext {m : Matcher} (hmove : m.findNext c = .ok e) : Walk c e := by
  obtain ⟨path, hgoto⟩ := exists_goto_of_findNext hmove
  exact Walk.refl.goto hgoto

end Cursor

/-- Every direction is a walk. -/
theorem Direction.walk {d : Direction} {c e : Cursor} (hmove : d.move c = .ok e) : c.Walk e := by
  cases d with
  | down => exact Cursor.Walk.refl.down hmove
  | up => exact Cursor.Walk.refl.up hmove
  | left => exact Cursor.Walk.refl.left hmove
  | right => exact Cursor.Walk.refl.right hmove
  | root =>
    obtain rfl := Except.ok.inj hmove
    exact Cursor.Walk.refl.root
  | leftmost =>
    obtain rfl := Except.ok.inj hmove
    exact Cursor.Walk.refl.leftmost
  | rightmost =>
    obtain rfl := Except.ok.inj hmove
    exact Cursor.Walk.refl.rightmost
  | next =>
    rw [Direction.move] at hmove
    cases hnext : c.next? with
    | none => simp [hnext] at hmove
    | some next =>
      rw [hnext] at hmove
      obtain rfl := Except.ok.inj hmove
      exact Cursor.Walk.refl.next? hnext
  | prev =>
    rw [Direction.move] at hmove
    cases hprev : c.prev? with
    | none => simp [hprev] at hmove
    | some prev =>
      rw [hprev] at hmove
      obtain rfl := Except.ok.inj hmove
      exact Cursor.Walk.refl.prev? hprev

end SexprEdit
