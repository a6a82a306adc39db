import SexprEdit.Proofs.Cursor.Walk
import SexprEdit.Proofs.Node.Labels

/-!
# The tree around a cursor

`Cursor.whole` puts the current node back into its frames one by one. Climbing to the root gives the same tree, since
a frame that is in step with a node has that node as its child (`SteadyFrom`). Walks change neither the whole tree nor
that invariant (`Cursor.On`).
-/

namespace SexprEdit

/-! ## Frames -/

namespace Frame

/-- The composite with another node as its child. -/
def fill (f : Frame) (n : Cell) : Cell :=
  .composite f.stamp f.kind (f.before ++ n :: f.after)

theorem plain_fill (f : Frame) (n : Cell) :
    (f.fill n).plain = .composite () f.kind (f.before.map Node.plain ++ n.plain :: f.after.map Node.plain) := by
  simp [fill]

end Frame

namespace Cursor

/-- A node put back into the frames around it. -/
def wholeFrom (n : Cell) : List Frame → Cell
  | [] => n
  | f :: outer => wholeFrom (f.fill n) outer

/-- The current node put back into the frames around it. -/
def whole (c : Cursor) : Cell :=
  wholeFrom c.node c.frames

/-- All stamps of a node and of the frames around it are in use, and a frame that is in step with the node below has
that node as its child. -/
def SteadyFrom (fresh : Stamp) (n : Cell) : List Frame → Prop
  | [] => n.Below fresh
  | f :: outer => n.Below fresh ∧ (f.inStep n = true → f.focus = n) ∧ SteadyFrom fresh f.parent outer

/-- The cursor rests on a form of the tree. -/
structure On (c : Cursor) (t : Tree) : Prop where
  steady : SteadyFrom c.fresh c.node c.frames
  form : c.node.isForm = true
  whole : c.whole.plain = t

theorem plain_wholeFrom {n m : Cell} (h : n.plain = m.plain) (frames : List Frame) :
    (wholeFrom n frames).plain = (wholeFrom m frames).plain := by
  induction frames generalizing n m with
  | nil => exact h
  | cons f outer ih => exact ih (by rw [f.plain_fill, f.plain_fill, h])

theorem SteadyFrom.below {fresh : Stamp} {n : Cell} {frames : List Frame} (h : SteadyFrom fresh n frames) :
    n.Below fresh := by
  cases frames with
  | nil => exact h
  | cons f outer => exact h.1

theorem SteadyFrom.mono {fresh later : Stamp} (hle : fresh ≤ later) {n : Cell} {frames : List Frame}
    (h : SteadyFrom fresh n frames) : SteadyFrom later n frames := by
  induction frames generalizing n with
  | nil => exact Node.Below.mono hle h
  | cons f outer ih => exact ⟨h.1.mono hle, h.2.1, ih h.2.2⟩

theorem SteadyFrom.renew {fresh later : Stamp} {n m : Cell} {frames : List Frame} (h : SteadyFrom fresh n frames)
    (hle : fresh ≤ later) (hm : m.Below later) (hnew : fresh ≤ m.label) : SteadyFrom later m frames := by
  cases frames with
  | nil => exact hm
  | cons f outer =>
    refine ⟨hm, fun hstep => ?_, h.2.2.mono hle⟩
    have hfocus : f.focus.label < fresh := by
      have hparent := (Node.below_iff.mp h.2.2.below).2 f.focus (by simp [Frame.parent, Node.children])
      exact (Node.below_iff.mp hparent).1
    have hlabel : f.focus.label = m.label := eq_of_beq hstep
    rw [hlabel] at hfocus
    exact absurd hfocus (Nat.not_lt_of_le hnew)

theorem SteadyFrom.enter {fresh : Stamp} {g : Frame} {outer : List Frame} (h : SteadyFrom fresh g.parent outer) :
    SteadyFrom fresh g.focus (g :: outer) := by
  have hchild := (Node.below_iff.mp h.below).2 g.focus (by simp [Frame.parent, Node.children])
  exact ⟨hchild, fun _ => rfl, h⟩

/-- What settling a frame does: the frame then has the node as its child. -/
theorem SteadyFrom.settle {fresh : Stamp} {n : Cell} {f : Frame} {outer : List Frame}
    (h : SteadyFrom fresh n (f :: outer)) :
    ∃ stamp, (f.settle n fresh).1 = { f with stamp := stamp, focus := n } ∧
      SteadyFrom (f.settle n fresh).2 (f.settle n fresh).1.parent outer := by
  obtain ⟨hn, hstep, hparent⟩ := h
  rw [Frame.settle]
  by_cases hin : f.inStep n = true
  · rw [if_pos hin]
    refine ⟨f.stamp, ?_, hparent⟩
    rw [← hstep hin]
  · rw [if_neg hin]
    refine ⟨fresh, rfl, hparent.renew (fresh.le_add 1) ?_ (le_refl fresh)⟩
    refine Node.below_iff.mpr ⟨fresh.lt_add Nat.one_pos, fun m hm => ?_⟩
    -- the other children are those of the composite as it was
    rcases List.mem_append.mp hm with hm | hm
    · exact ((Node.below_iff.mp hparent.below).2 m (List.mem_append_left _ hm)).mono (fresh.le_add 1)
    · rcases List.mem_cons.mp hm with rfl | hm
      · exact hn.mono (fresh.le_add 1)
      · exact ((Node.below_iff.mp hparent.below).2 m (by simp [Frame.parent, Node.children, hm])).mono (fresh.le_add 1)

/-! ## Walks -/

variable {c c' : Cursor} {t : Tree}

theorem le_settle (f : Frame) (n : Cell) (fresh : Stamp) : fresh ≤ (f.settle n fresh).2 := by
  rw [Frame.settle]
  split_ifs
  · exact le_refl fresh
  · exact fresh.le_add 1

theorem Walk.fresh_le (h : Walk c c') : c.fresh ≤ c'.fresh := by
  induction h with
  | refl => exact Nat.le_refl _
  | enter _ _ ih => exact ih
  | leave _ ih => exact ih.trans (le_settle _ _ _)
  | settle _ ih => exact ih.trans (le_settle _ _ _)

theorem Walk.steady (h : Walk c c') (hc : SteadyFrom c.fresh c.node c.frames) :
    SteadyFrom c'.fresh c'.node c'.frames := by
  induction h with
  | refl => exact hc
  | enter _ _ ih => exact ih.enter
  | leave _ ih =>
    obtain ⟨-, -, hparent⟩ := ih.settle
    exact hparent
  | settle _ ih =>
    obtain ⟨stamp, heq, hparent⟩ := ih.settle
    have hchild := hparent.enter
    rwa [heq] at hchild ⊢

theorem SteadyFrom.plain_settle {fresh : Stamp} {n : Cell} {f : Frame} {outer : List Frame}
    (h : SteadyFrom fresh n (f :: outer)) :
    (wholeFrom (f.settle n fresh).1.parent outer).plain = (wholeFrom n (f :: outer)).plain := by
  obtain ⟨stamp, heq, -⟩ := h.settle
  rw [heq]
  exact plain_wholeFrom (by simp [Frame.parent, Frame.fill]) outer

theorem Walk.plain_whole (h : Walk c c') (hc : SteadyFrom c.fresh c.node c.frames) : c'.whole.plain = c.whole.plain := by
  induction h with
  | refl => rfl
  | enter _ _ ih => exact ih
  | leave hwalk ih => exact (hwalk.steady hc).plain_settle.trans ih
  | @settle n f outer fresh hwalk ih =>
    obtain ⟨stamp, heq, -⟩ := (hwalk.steady hc).settle
    refine (plain_wholeFrom (n := (f.settle n fresh).1.fill n) (m := f.fill n) ?_ outer).trans ih
    rw [heq]
    simp [Frame.fill]

theorem Walk.isForm (h : Walk c c') (hc : c.node.isForm = true) : c'.node.isForm = true := by
  induction h with
  | refl => exact hc
  | enter _ hform _ => exact hform
  | leave _ _ => rfl
  | settle _ ih => exact ih

theorem On.walk (h : c.On t) (hwalk : Walk c c') : c'.On t :=
  ⟨hwalk.steady h.steady, hwalk.isForm h.form, (hwalk.plain_whole h.steady).trans h.whole⟩

/-- Climbing to the root gives the whole tree. -/
theorem SteadyFrom.plain_tree (h : SteadyFrom c.fresh c.node c.frames) : c.tree.plain = c.whole.plain := by
  have hroot := Walk.refl.root.plain_whole h
  rwa [Cursor.whole, Cursor.root, frames_rootFrom] at hroot

theorem On.tree (h : c.On t) : c.tree.plain = t :=
  h.steady.plain_tree.trans h.whole

theorem stamps_ofTree (start : Stamp) (t : Tree) :
    SteadyFrom (ofTree start t).fresh (ofTree start t).node (ofTree start t).frames :=
  (Node.stamp_spec t.draft start (Node.keepsBelow_draft start t)).below

theorem plain_ofTree (start : Stamp) (t : Tree) : (ofTree start t).node.plain = t :=
  (Node.stamp_spec t.draft start (Node.keepsBelow_draft start t)).plain.trans (Node.plain_draft t)

theorem on_ofTree (start : Stamp) (h : t.isForm = true) : (ofTree start t).On t := by
  refine ⟨stamps_ofTree start t, ?_, plain_ofTree start t⟩
  rw [← Node.isForm_map (fun _ => ()), ← Node.plain, plain_ofTree, h]

end Cursor

end SexprEdit
