import SexprEdit.Proofs.Cursor.Offset

/-!
# One and the same tree

Two cursors are known to be on one tree if climbing gives both of them the same root, stamps included. Such cursors have
one source, wherever they come from (`Cursor.source_eq_of_sameTree`). A walk keeps its tree exactly if it starts in step,
and a cursor on a new tree is on no tree whose root has another stamp. Along edits the stamp of the root already tells
(`Cursor.Edits.sameTree_iff`): an edit leaves the root as it was last written, or the new root has a new stamp
(`Cursor.Renews`).
-/

namespace SexprEdit

open Node

namespace Cursor

variable {strict : Prop} {c c' d e : Cursor} {n m m' : Cell} {fresh : Stamp} {frames frames' outer : List Frame}
  {op : Operation}

/-! ## The root as it was last written -/

/-- Whether all frames of a cursor are in step. -/
def inStep (c : Cursor) : Bool :=
  inStepFrom c.node c.frames

/-- The outermost composite as it was last written, around a node inside some frames. -/
def writtenFrom (n : Cell) : List Frame → Cell
  | [] => n
  | f :: outer => writtenFrom f.parent outer

def written (c : Cursor) : Cell :=
  writtenFrom c.node c.frames

theorem inStepFrom_settle {f : Frame} (h : inStepFrom n (f :: outer) = true) (fresh : Stamp) :
    f.settle n fresh = (f, fresh) ∧ inStepFrom f.parent outer = true := by
  rw [inStepFrom, Bool.and_eq_true] at h
  exact ⟨by rw [Frame.settle, if_pos h.1], h.2⟩

theorem node_rootFrom (h : inStepFrom n frames = true) (fresh : Stamp) :
    (rootFrom n fresh frames).node = writtenFrom n frames := by
  induction frames generalizing n with
  | nil => rfl
  | cons f outer ih =>
    obtain ⟨hsettle, hparent⟩ := inStepFrom_settle h fresh
    rw [rootFrom, hsettle]
    exact ih hparent

theorem tree_eq_written (h : c.inStep = true) : c.tree = c.written :=
  node_rootFrom h c.fresh

/-! ## Cursors on one tree -/

theorem sameTree_iff : c.sameTree d = true ↔ c.inStep = true ∧ d.inStep = true ∧ c.written = d.written := by
  rw [sameTree, sharedRoot?, sharedRoot?, ← inStep, ← inStep]
  by_cases hc : c.inStep = true
  · by_cases hd : d.inStep = true
    · rw [if_pos hc, if_pos hd, tree_eq_written hc, tree_eq_written hd]
      simp [same_iff, hc, hd]
    · simp [hc, hd]
  · simp [hc]

theorem sameTree_drawing (supply : Supply) : (c.drawing supply).sameTree d = c.sameTree d := by
  rw [Bool.eq_iff_iff, sameTree_iff, sameTree_iff]
  rfl

/-- Cursors that are known to be on one tree have one source. -/
theorem source_eq_of_sameTree (h : c.sameTree d = true) : d.source = c.source := by
  obtain ⟨hc, hd, hwritten⟩ := sameTree_iff.mp h
  rw [source, source, tree_eq_written hc, tree_eq_written hd, hwritten]

theorem Walk.inStep (h : Walk c c') (hc : c.inStep = true) : c'.inStep = true ∧ c'.written = c.written := by
  induction h with
  | refl => exact ⟨hc, rfl⟩
  | @enter g outer fresh _ _ ih =>
    obtain ⟨hin, hroot⟩ := ih
    refine ⟨?_, hroot⟩
    rw [Cursor.inStep, inStepFrom, Frame.inStep, beq_self_eq_true, Bool.true_and]
    exact hin
  | @leave n f outer fresh _ ih =>
    obtain ⟨hin, hroot⟩ := ih
    obtain ⟨hsettle, hparent⟩ := inStepFrom_settle hin fresh
    rw [hsettle]
    exact ⟨hparent, hroot⟩
  | @settle n f outer fresh _ ih =>
    obtain ⟨hin, hroot⟩ := ih
    obtain ⟨hsettle, -⟩ := inStepFrom_settle hin fresh
    rw [hsettle]
    exact ⟨hin, hroot⟩

/-- A walk is known to stay on its tree exactly if it starts in step. -/
theorem Walk.sameTree (h : Walk c c') : c.sameTree c' = c.inStep := by
  by_cases hc : c.inStep = true
  · obtain ⟨hin, hroot⟩ := h.inStep hc
    rw [hc, sameTree_iff]
    exact ⟨hc, hin, hroot.symm⟩
  · rw [Bool.eq_false_iff.mpr hc, Bool.eq_false_iff]
    exact fun hsame => hc (sameTree_iff.mp hsame).1

theorem sameTree_ofTree {start : Stamp} (hroot : c.written.label ≠ start) (t : Tree) :
    c.sameTree (ofTree start t) = false := by
  rw [Bool.eq_false_iff]
  intro hsame
  obtain ⟨-, -, hwritten⟩ := sameTree_iff.mp hsame
  refine hroot ?_
  rw [hwritten]
  cases t <;> rfl

/-! ## Old roots and new ones -/

/-- The root of the second cursor is that of the first, or its stamp was not in use there. -/
def Renews (c c' : Cursor) : Prop :=
  c'.written = c.written ∨ c.fresh ≤ c'.written.label

theorem Renews.trans (hcd : Renews c d) (hde : Renews d e) (hle : c.fresh ≤ d.fresh) : Renews c e := by
  rcases hde with hsame | hnew
  · rw [Renews, hsame]
    exact hcd
  · exact .inr (hle.trans hnew)

theorem writtenFrom_new (hnew : fresh ≤ m'.label) (outer : List Frame) :
    writtenFrom m' outer = writtenFrom m outer ∨ fresh ≤ (writtenFrom m' outer).label := by
  cases outer with
  | nil => exact .inr hnew
  | cons f outer => exact .inl rfl

theorem writtenFrom_settle (f : Frame) (n : Cell) (fresh : Stamp) (outer : List Frame) :
    writtenFrom (f.settle n fresh).1.parent outer = writtenFrom f.parent outer ∨
      fresh ≤ (writtenFrom (f.settle n fresh).1.parent outer).label := by
  rw [Frame.settle]
  split_ifs
  · exact .inl rfl
  · exact writtenFrom_new (le_refl fresh) outer

theorem Walk.renews (h : Walk c c') : Renews c c' := by
  induction h with
  | refl => exact .inl rfl
  | enter _ _ ih => exact ih
  | @leave n f outer fresh hwalk ih =>
    have hstep : Renews ⟨n, f :: outer, fresh⟩ ⟨(f.settle n fresh).1.parent, outer, (f.settle n fresh).2⟩ :=
      writtenFrom_settle f n fresh outer
    exact ih.trans hstep hwalk.fresh_le
  | @settle n f outer fresh hwalk ih =>
    have hstep : Renews ⟨n, f :: outer, fresh⟩ ⟨n, (f.settle n fresh).1 :: outer, (f.settle n fresh).2⟩ :=
      writtenFrom_settle f n fresh outer
    exact ih.trans hstep hwalk.fresh_le

theorem Recasts.renews (h : Recasts c c' outer m m') : Renews c c' := by
  have hwritten : c'.written = writtenFrom m' outer := by
    cases h.rests with
    | on => rfl
    | inside hparent _ => rw [← hparent]; rfl
  rw [Renews, hwritten]
  cases h.holds with
  | node => exact writtenFrom_new h.label c.frames
  | @around f _ hframes =>
    rw [written, hframes]
    exact writtenFrom_new (m := f.parent) h.label outer

theorem writtenFrom_loosens (h : Frame.Loosens fresh frames frames') (n : Cell) :
    writtenFrom n frames' = writtenFrom n frames ∨ fresh ≤ (writtenFrom n frames').label := by
  induction h generalizing n with
  | refl => exact .inl rfl
  | @here f outer _ =>
    have hnew : fresh ≤ (f.spaceAfter fresh).parent.label := le_refl fresh
    exact writtenFrom_new (m := f.parent) hnew outer
  | @outside f _ _ _ ih => exact ih f.parent

/-- One operation leaves the root as it was last written, or gives a new one. -/
theorem renews_run (hc : c.Steady) (hop : op.Fits strict c.fresh) (hform : ∀ form ∈ op.form?, form.isRoot = false)
    (h : op.run c = .ok c') : Renews c c' := by
  rcases op.run_cases hc hop h with hwalk | ⟨outer, m, m', hrecasts⟩ | ⟨hframes, -, -, hnew⟩ |
    ⟨g, outer, outer', m, fresh, hrecasts, hloosens, rfl⟩
  · exact hwalk.renews
  · exact hrecasts.renews
  · refine .inr ?_
    rw [written, hframes]
    exact hnew hform
  · have hstep : Renews ⟨g.focus, g :: outer, fresh⟩ ⟨g.focus, g :: outer', fresh + 2⟩ :=
      writtenFrom_loosens hloosens g.parent
    exact hrecasts.renews.trans hstep hrecasts.fresh_le

theorem Edits.renews (h : Edits strict c d) (hc : c.Steady) : Renews c d := by
  induction h with
  | refl => exact .inl rfl
  | step hedits op hop hform hrun ih =>
    exact ih.trans (renews_run (hedits.runs.steady hc) hop hform hrun) (hedits.runs.fresh_le hc)

theorem SteadyFrom.writtenFrom_below (h : SteadyFrom fresh n frames) : (writtenFrom n frames).Below fresh := by
  induction frames generalizing n with
  | nil => exact h
  | cons f outer ih => exact ih h.2.2

/-- After edits a root with the old stamp is the old root, so that comparing the two stamps is enough. -/
theorem Edits.sameTree_iff (h : Edits strict c d) (hc : c.Steady) :
    c.sameTree d = true ↔ c.inStep = true ∧ d.inStep = true ∧ d.written.label = c.written.label := by
  rw [Cursor.sameTree_iff]
  refine and_congr_right fun _ => and_congr_right fun _ => ⟨fun hwritten => by rw [hwritten], fun hlabel => ?_⟩
  rcases h.renews hc with hsame | hnew
  · exact hsame.symm
  · have hlt : c.written.label < c.fresh := (below_iff.mp hc.stamps.writtenFrom_below).1
    rw [hlabel] at hnew
    exact absurd hnew (not_le_of_gt hlt)

/-! ## Supplies

No operation changes from one supply to another. -/

theorem supply_stampAll {ds : List Draft} (h : ∀ d ∈ ds, ∀ fresh, (stamp fresh d).2.supply = fresh.supply)
    (fresh : Stamp) : (stampAll fresh ds).2.supply = fresh.supply := by
  induction ds generalizing fresh with
  | nil => rfl
  | cons d ds ih =>
    obtain ⟨hd, hds⟩ := List.forall_mem_cons.mp h
    exact (ih hds _).trans (hd fresh)

theorem supply_stamp (d : Draft) (fresh : Stamp) : (stamp fresh d).2.supply = fresh.supply := by
  induction d using child_induction generalizing fresh with
  | node d ih =>
    cases d with
    | composite label kind children => exact supply_stampAll ih (fresh + 1)
    | _ => rfl

theorem Walk.supply_eq (h : Walk c c') : c'.fresh.supply = c.fresh.supply := by
  have hsettle : ∀ (f : Frame) (n : Cell) (fresh : Stamp), (f.settle n fresh).2.supply = fresh.supply := by
    intro f n fresh
    rw [Frame.settle]
    split_ifs <;> rfl
  induction h with
  | refl => rfl
  | enter _ _ ih => exact ih
  | leave _ ih => exact (hsettle _ _ _).trans ih
  | settle _ ih => exact (hsettle _ _ _).trans ih

theorem supply_run (h : op.run c = .ok c') : c'.fresh.supply = c.fresh.supply := by
  cases op with
  | move direction => exact (Direction.walk h).supply_eq
  | goto path => exact (Walk.refl.goto h).supply_eq
  | replace d =>
    have hlater := supply_stamp d c.fresh
    obtain ⟨-, ⟨-, -, rfl⟩ | ⟨-, -, rfl⟩ | ⟨f, outer, -, rfl⟩⟩ := replace_eq_ok rfl h
    · exact hlater
    · exact hlater
    · exact hlater
  | insertBefore d =>
    obtain ⟨-, f, outer, -, -, rfl⟩ := insertBefore_eq_ok rfl h
    exact supply_stamp d c.fresh
  | insertAfter d =>
    obtain ⟨-, f, outer, -, -, rfl⟩ := insertAfter_eq_ok rfl h
    exact supply_stamp d c.fresh
  | insertChild d =>
    obtain ⟨-, label, kind, old, new, -, -, rfl, -⟩ := insertChild_eq_ok rfl h
    exact supply_stamp d c.fresh
  | appendChild d =>
    obtain ⟨-, label, kind, old, new, -, -, rfl, -⟩ := appendChild_eq_ok rfl h
    exact supply_stamp d c.fresh
  | remove =>
    obtain ⟨f, outer, rest, -, -, -, ⟨cut, -, rfl⟩ | ⟨-, cut, -, rfl⟩ | ⟨-, -, rfl⟩⟩ := remove_eq_ok h
    · rfl
    · rfl
    · rfl

theorem Runs.supply_eq (h : Runs strict c d) : d.fresh.supply = c.fresh.supply := by
  induction h with
  | refl => rfl
  | step _ op _ hrun ih => exact (supply_run hrun).trans ih

theorem Steady.drawing (h : c.Steady) (supply : Supply) : (c.drawing supply).Steady := by
  have hle : c.fresh ≤ (c.drawing supply).fresh := Nat.le_refl c.fresh.number
  exact ⟨h.stamps.mono hle, h.form⟩

theorem drawing_eq_self {supply : Supply} (h : c.fresh.supply = supply) : c.drawing supply = c := by
  rw [Cursor.drawing, ← h]

end Cursor

end SexprEdit
