import SexprEdit.Proofs.Cursor.Coherence
import SexprEdit.Proofs.Text.Position

/-!
# Offsets

The offset of a cursor is added up frame by frame, from what each composite writes before the child that the cursor is
in. The frames may be out of step, but the child in a frame is a form if the node below it is one, and forms are all
alike to a comment in front of them. So the frames around a cursor write the same text before any form that stands
there (`text_wholeFrom`), the offset is the length of that text, and a location rounds nothing.
-/

namespace SexprEdit

open Node

namespace Cursor

variable {c : Cursor} {n : Cell} {frames : List Frame}

theorem FacedFrom.isForm (h : FacedFrom n frames) (hn : frames ≠ [] → n.isForm = true) :
    ∀ f ∈ frames, f.focus.isForm = true := by
  induction frames generalizing n with
  | nil => simp
  | cons f outer ih =>
    refine List.forall_mem_cons.mpr ⟨?_, ih h.2 fun _ => rfl⟩
    rw [← isForm_face, h.1, isForm_face]
    exact hn (by simp)

theorem text_fill (f : Frame) {m : Cell} (hm : m.isForm = true) :
    (f.fill m).text = (f.kind.opener ++ childrenText true f.before) ++ m.text ++
      (childrenText (!f.kind.closer.isEmpty) f.after ++ f.kind.closer) := by
  rw [Frame.fill, text, childrenText_append, startsWithNewline_of_isForm hm, ending_of_isForm hm]
  simp

theorem bytes_width {f : Frame} (hf : f.focus.isForm = true) :
    f.width = Text.bytes (f.kind.opener ++ childrenText true f.before) := by
  rw [Frame.width, startsWithNewline_of_isForm hf, Text.bytes_append]
  rfl

/-- What the composites of some frames write before the node inside. -/
def lead : List Frame → Text
  | [] => []
  | f :: outer => lead outer ++ f.kind.opener ++ childrenText true f.before

theorem bytes_lead (h : ∀ f ∈ frames, f.focus.isForm = true) :
    (lead frames).bytes = (frames.map Frame.width).foldr (· + ·) 0 := by
  induction frames with
  | nil => rfl
  | cons f outer ih =>
    obtain ⟨hf, houter⟩ := List.forall_mem_cons.mp h
    rw [lead, List.append_assoc, Text.bytes_append, ih houter, ← bytes_width hf, List.map_cons, List.foldr_cons, Nat.add_comm]

theorem text_wholeFrom (frames : List Frame) :
    ∃ after : Text, ∀ m : Cell, m.isForm = true → (wholeFrom m frames).text = lead frames ++ m.text ++ after := by
  induction frames with
  | nil => exact ⟨[], fun m _ => by simp [wholeFrom, lead]⟩
  | cons f outer ih =>
    obtain ⟨after, htext⟩ := ih
    refine ⟨(childrenText (!f.kind.closer.isEmpty) f.after ++ f.kind.closer) ++ after, fun m hm => ?_⟩
    rw [wholeFrom, htext (f.fill m) rfl, text_fill f hm, lead]
    simp only [List.append_assoc]

theorem SteadyFrom.source_eq (h : SteadyFrom c.fresh c.node c.frames) : c.source = c.whole.text := by
  have htext := congrArg text h.plain_tree
  rwa [plain, plain, text_map, text_map] at htext

/-- The source is split by the current node, and what stands before it is as long as the offset. -/
theorem Steady.source_lead (hc : c.Steady) (hfaced : FacedFrom c.node c.frames) :
    ∃ after : Text, (lead c.frames).bytes = c.offset ∧ c.source = lead c.frames ++ c.node.text ++ after ∧
      ∀ m : Cell, m.isForm = true → (wholeFrom m c.frames).text = lead c.frames ++ m.text ++ after := by
  have hbytes : (lead c.frames).bytes = c.offset := bytes_lead (hfaced.isForm hc.form)
  rw [hc.stamps.source_eq]
  by_cases hframes : c.frames = []
  · -- at the root nothing is written around the node
    refine ⟨[], hbytes, ?_, fun m _ => ?_⟩
    · rw [whole, hframes]
      simp [wholeFrom, lead]
    · rw [hframes]
      simp [wholeFrom, lead]
  · obtain ⟨after, htext⟩ := text_wholeFrom c.frames
    exact ⟨after, hbytes, htext c.node (hc.form hframes), htext⟩

theorem Steady.source_split (hc : c.Steady) (hfaced : FacedFrom c.node c.frames) :
    ∃ before after : Text, before.bytes = c.offset ∧ c.source = before ++ c.node.text ++ after ∧
      ∀ m : Cell, m.isForm = true → (wholeFrom m c.frames).text = before ++ m.text ++ after := by
  obtain ⟨after, hsplit⟩ := hc.source_lead hfaced
  exact ⟨lead c.frames, after, hsplit⟩

theorem Steady.location_eq (hc : c.Steady) (hfaced : FacedFrom c.node c.frames) :
    c.location = (Position.advance {} (lead c.frames)).location c.path := by
  obtain ⟨after, hbytes, hsource, -⟩ := hc.source_lead hfaced
  rw [location, ← hbytes, hsource, List.append_assoc, Text.upTo_bytes_append]

/-- From any tree and after any operations, the offset of a cursor is the length of what is written before its node,
whichever form stands there. So the offset falls on the end of a character of the source, and the location of the cursor
is the line and the column where the node begins. -/
theorem offset_exact {start : Stamp} {t : Tree} (h : Runs False (ofTree start t) c) :
    ∃ before after : Text, c.source = before ++ c.node.text ++ after ∧ before.bytes = c.offset ∧
      (∀ m : Cell, m.isForm = true → (wholeFrom m c.frames).text = before ++ m.text ++ after) ∧
        Text.upTo c.offset c.source = before ∧
          c.location = ⟨c.path, c.offset, before.count '\n' + 1, (before.reverse.takeWhile (· ≠ '\n')).length + 1⟩ := by
  have hc := h.steady (steady_ofTree start t)
  obtain ⟨before, after, hbytes, hsource, htext⟩ := hc.source_split (h.faced (steady_ofTree start t) trivial)
  have hupTo : Text.upTo c.offset c.source = before := by
    rw [← hbytes, hsource, List.append_assoc, Text.upTo_bytes_append]
  refine ⟨before, after, hsource, hbytes, htext, hupTo, ?_⟩
  rw [location, hupTo, Position.advance_eq, hbytes]
  rfl

/-- A comment that its composite has to end, characters of two bytes, and frames out of step. -/
theorem offset_exact_comment :
    ∃ c, Runs False (ofTree (Supply.outside 0).first (.root [.composite () (.bracket (.namespacedMap "#:é".toList))
        [.trivia () (.comment ";ü".toList), .composite () (.bracket .list) [.atom () ⟨.symbol, ['a']⟩]]])) c ∧
      inStepFrom c.node c.frames = false ∧ c.source = "#:é\x7b;ü\n(b)\x7d".toList ∧ c.offset = 10 ∧
        (∃ before after : Text, c.source = before ++ "b".toList ++ after ∧ before.bytes = c.offset) ∧
          c.location = ⟨[0, 0, 0], 10, 2, 2⟩ := by
  have hreach : Runs False (ofTree (Supply.outside 0).first
      (.root [.composite () (.bracket (.namespacedMap "#:é".toList))
      [.trivia () (.comment ";ü".toList), .composite () (.bracket .list) [.atom () ⟨.symbol, ['a']⟩]]])) _ :=
    (Runs.refl.step (.goto [0, 0, 0]) (by rintro d ⟨⟩) rfl).step (.replace (.atom none ⟨.symbol, ['b']⟩))
      (by rintro d ⟨⟩; exact ⟨rfl, False.elim⟩) rfl
  obtain ⟨before, after, hsource, hbytes, -⟩ := offset_exact hreach
  exact ⟨_, hreach, by decide +kernel, by decide +kernel, by decide +kernel, ⟨before, after, hsource, hbytes⟩,
    by decide +kernel⟩

end Cursor

end SexprEdit
