import SexprEdit.Proofs.Cursor.Edits

/-!
# Replacing the current node

The new form is kept apart from its neighbours by blanks. Where it ends a mark, its end is also the end of that mark,
and is kept apart from what follows further out.
-/

namespace SexprEdit

open Node

namespace Cursor

variable {P : Token → Prop} {c c' : Cursor} {d : Draft}

theorem replaceFocus_eq (f : Frame) (n : Cell) (fresh : Stamp) :
    f.replaceFocus n fresh =
      ⟨fresh, f.kind, f.before ++ blankIf (needsGap f.kind f.before.getLast? (some n)) (fresh + 1), n,
        blankIf (needsGap f.kind (some n) f.after.head?) (fresh + 2) ++ f.after⟩ := rfl

theorem after_ne_nil_or {f : Frame} (n : Cell) (stamp : Stamp)
    (h : blankIf (needsGap f.kind (some n) f.after.head?) stamp ++ f.after ≠ [] ∨ f.kind.closer ≠ []) :
    f.after ≠ [] ∨ f.kind.closer ≠ [] := by
  by_cases hcloser : f.kind.closer = []
  · refine .inl fun hafter => ?_
    rw [hafter, List.head?_nil, blankIf_eq_nil hcloser] at h
    simp [hcloser] at h
  · exact .inr hcloser

theorem wholeFrom_keepApartOutside (n : Cell) (tail : Text) (fresh : Stamp) (f : Frame) (outer : List Frame) :
    (f.following? = some [] ∧ Frame.keepApartOutside tail fresh (f :: outer) = f :: Frame.keepApart tail fresh outer ∧
      wholeFrom n (Frame.keepApartOutside tail fresh (f :: outer)) =
        wholeFrom (f.fill n) (Frame.keepApart tail fresh outer)) ∨
      (f.following? ≠ some [] ∧ Frame.keepApartOutside tail fresh (f :: outer) = f :: outer ∧
        wholeFrom n (Frame.keepApartOutside tail fresh (f :: outer)) = wholeFrom (f.fill n) outer) := by
  rw [Frame.keepApartOutside]
  split
  · next h => exact .inl ⟨h, rfl, rfl⟩
  · next h => exact .inr ⟨h, rfl, rfl⟩

/-- What replacing does: at the root the form becomes the only one of the document. -/
theorem replace_cases (hd : Ready P c.fresh d) (hedit : c.replace d = .ok c') :
    d.isForm = true ∧
      ((c.frames = [] ∧ c' = ⟨.composite (stamp c.fresh d).2 .root [(stamp c.fresh d).1], [], (stamp c.fresh d).2 + 1⟩) ∨
        ∃ f outer, c.frames = f :: outer ∧
          c' = ⟨(stamp c.fresh d).1, Frame.keepApartOutside (stamp c.fresh d).1.tailText ((stamp c.fresh d).2 + 3)
            (f.replaceFocus (stamp c.fresh d).1 (stamp c.fresh d).2 :: outer), (stamp c.fresh d).2 + 5⟩) := by
  obtain ⟨hform, ⟨-, hroot, -⟩ | ⟨hframes, -, hc'⟩ | hinside⟩ := replace_eq_ok rfl hedit
  · rw [hd.adopted.made.2] at hroot
    cases hroot
  · exact ⟨hform, .inl ⟨hframes, hc'⟩⟩
  · exact ⟨hform, .inr hinside⟩

theorem made_replaceFocus (hP : Token.Lawful P) {f : Frame} {n m : Cell} (h : (f.fill n).Made P)
    (hm : m.Made P ∧ m.isRoot = false) (hform : m.isForm = n.isForm) (fresh : Stamp) :
    ((f.replaceFocus m fresh).fill m).Made P := by
  refine h.exchange hP _ hm hform (madeAll_blankIf hP _ _) (madeAll_blankIf hP _ _) (isForm_blankIf _ _) (isForm_blankIf _ _) ?_
  intro k hk hafter
  rw [hafter, List.head?_nil]
  exact blankIf_eq_nil (by simp [hk, Kind.closer]) m _

theorem spaced_replaceFocus {f : Frame} {n m : Cell} (h : (f.fill n).Made Token.Tame) (hs : (f.fill n).Spaced)
    (hm : Adopted Token.Tame d m) (hds : d.Spaced) (fresh : Stamp) : ((f.replaceFocus m fresh).fill m).Spaced := by
  have hkind := h.opening Token.lawful_tame
  obtain ⟨hbefore, hrest⟩ := madeAll_append.mp (h.children Token.lawful_tame)
  obtain ⟨-, hafter⟩ := madeAll_cons.mp hrest
  obtain ⟨⟨hbefores, -, hafters⟩, hfront, -, -, hback⟩ := Frame.spaced_fill_iff.mp hs
  obtain ⟨hgapLeft, hleft⟩ := hfront.gap hkind hbefore hm.tame (fresh + 1)
  obtain ⟨hright, hgapRight⟩ := hback.gap hkind hafter hm.sound (fresh + 2)
  rw [replaceFocus_eq]
  refine Frame.spaced_fill_iff.mpr ⟨⟨?_, hm.spaced.mpr hds, ?_⟩, hgapLeft, hleft, hright, hgapRight⟩
  · exact List.forall_mem_append.mpr ⟨hbefores, spaced_blankIf _ _⟩
  · exact List.forall_mem_append.mpr ⟨spaced_blankIf _ _, hafters⟩

theorem Valid.replace (hP : Token.Lawful P) (h : c.Valid P) (hd : Ready P c.fresh d) (hedit : c.replace d = .ok c') :
    c'.Valid P := by
  obtain ⟨-, hle, hbelow⟩ := stamp_spec d c.fresh hd.keeps
  have hn := hd.adopted
  obtain ⟨hform, ⟨hframes, rfl⟩ | ⟨f, outer, hframes, rfl⟩⟩ := replace_cases hd hedit
  · refine ⟨below_iff.mpr ⟨Stamp.lt_add _ Nat.one_pos, ?_⟩, rfl, ?_, rfl⟩
    · exact List.forall_mem_singleton.mpr (hbelow.mono (Stamp.le_add _ 1))
    · exact (made_variadic_iff hP (by simp)).mpr ⟨madeAll_cons.mpr ⟨hn.made, madeAll_nil⟩, by simp [Kind.opening]⟩
  · have hframe := (replaceFocus_recasts h.poised hd.keeps rfl hform hframes).stamps h.poised
    generalize stamp c.fresh d = stamped at hle hbelow hn hframe
    have hmade := h.made
    have hroot := h.root
    rw [whole, hframes] at hmade hroot
    have hforms : stamped.1.isForm = c.node.isForm := by rw [hn.form, hform, h.form]
    have hnew := made_replaceFocus hP (made_of_wholeFrom hP hmade) hn.made hforms stamped.2
    have hkind := isRoot_composite f.stamp stamped.2 f.kind (f.before ++ c.node :: f.after)
    rcases wholeFrom_keepApartOutside stamped.1 stamped.1.tailText (stamped.2 + 3) (f.replaceFocus stamped.1 stamped.2)
      outer with ⟨-, hapart, hwhole⟩ | ⟨-, hapart, hwhole⟩
    · refine ⟨?_, by rw [hforms, h.form], ?_, ?_⟩
      · simp only [hapart]
        exact SteadyFrom.enter (hframe.loosens (Frame.loosens_keepApart _ _ outer) (le_refl _))
      · rw [whole, hwhole]
        exact made_keepApart hP _ _ hmade hnew rfl (hkind _)
      · rw [whole, hwhole, ← hroot]
        exact isRoot_keepApart _ _ (hkind _)
    · refine ⟨?_, by rw [hforms, h.form], ?_, ?_⟩
      · simp only [hapart]
        exact SteadyFrom.enter (hframe.mono (Stamp.le_add _ 2))
      · rw [whole, hwhole]
        exact made_wholeFrom hP hmade hnew rfl (hkind _)
      · rw [whole, hwhole, ← hroot]
        exact isRoot_wholeFrom (hkind _) outer

theorem headText_inside (hP : Token.Lawful P) {label : Stamp} {kind : Kind} {ns : List Cell} {f : Frame}
    {outer : List Frame} (h : (wholeFrom (.composite label kind ns) (f :: outer)).Made P) (label' : Stamp)
    (ms : List Cell) : (Node.composite label' kind ms).headText = (Node.composite label kind ns).headText := by
  have hroot := isRoot_of_wholeFrom hP h
  have hkind := (made_of_wholeFrom hP h).opening hP
  have hopener : kind.opener ≠ [] := by
    cases kind with
    | root => simp [Node.isRoot] at hroot
    | bracket b => exact b.opener_ne_nil
    | mark m => exact (hkind (.mark m) (by simp [Kind.opening])).text_ne_nil
  have hopener : kind.opener.isEmpty = false := by simpa using hopener
  rw [headText, headText, hopener]
  rfl

theorem spaced_replace (h : c.Valid Token.Tame) (hs : c.whole.Spaced) (hd : Ready Token.Tame c.fresh d) (hds : d.Spaced)
    (hedit : c.replace d = .ok c') : c'.whole.Spaced := by
  have hP := Token.lawful_tame
  have hn := hd.adopted
  obtain ⟨hform, ⟨hframes, rfl⟩ | ⟨f, outer, hframes, rfl⟩⟩ := replace_cases hd hedit
  · refine spaced_single (by simp) (by simp [Kind.opening]) madeAll_nil (by simp) hn hds c.fresh _ ?_
    exact spaced_iff_backSpaced.mpr ⟨by simp, rfl, backSpaced_nil⟩
  · generalize stamp c.fresh d = stamped at hn
    have hmade := h.made
    rw [whole, hframes] at hmade hs
    have hforms : stamped.1.isForm = c.node.isForm := by rw [hn.form, hform, h.form]
    have hold : (f.fill c.node).Made Token.Tame := made_of_wholeFrom hP hmade
    have hnew := made_replaceFocus hP hold hn.made hforms stamped.2
    have hspaced := spaced_replaceFocus hold (spaced_of_wholeFrom hs) hn hds stamped.2
    have hkind := isRoot_composite f.stamp stamped.2 f.kind (f.before ++ c.node :: f.after)
    have hafter : MadeAll Token.Tame (f.replaceFocus stamped.1 stamped.2).after :=
      (madeAll_cons.mp (madeAll_append.mp (hnew.children hP)).2).2
    rcases wholeFrom_keepApartOutside stamped.1 stamped.1.tailText (stamped.2 + 3) (f.replaceFocus stamped.1 stamped.2)
      outer with ⟨hnil, -, hwhole⟩ | ⟨hnext, -, hwhole⟩
    · -- nothing follows in the innermost composite, so the new form ends that one too
      rw [whole, hwhole]
      cases outer with
      | nil => exact hspaced
      | cons g outer =>
        have htail : ((f.replaceFocus stamped.1 stamped.2).fill stamped.1).tailText = stamped.1.tailText := by
          rcases Frame.following?_cases hP hafter with ⟨hnone, -⟩ | ⟨-, hempty, hcloser⟩ | ⟨text, hsome, hne, -⟩
          · simp [hnone] at hnil
          · rw [Frame.fill, hempty, tailText_composite_last _ _ _ hcloser]
          · exact absurd (Option.some.inj (hsome.symm.trans hnil)) hne
        have hapart := spaced_keepApart (n := f.fill c.node) (stamped.2 + 3) hmade hs hnew hspaced (hkind _) rfl
          (headText_inside hP hmade _ _)
        rwa [htail] at hapart
    · rw [whole, hwhole]
      cases outer with
      | nil => exact hspaced
      | cons g outer =>
        have hend : f.after ≠ [] ∨ f.kind.closer ≠ [] := by
          rcases Frame.following?_cases hP hafter with ⟨-, t, rest, heq, -⟩ | ⟨hnil, -⟩ | ⟨text, -, -, hend, -⟩
          · exact after_ne_nil_or stamped.1 (stamped.2 + 2) (.inl fun hnil => by
              rw [replaceFocus_eq] at heq
              simp [hnil] at heq)
          · exact absurd hnil hnext
          · exact after_ne_nil_or _ _ hend
        refine spaced_wholeFrom hs hspaced ⟨rfl, headText_inside hP hmade _ _, ?_⟩
        have htail := tailText_composite_append f.stamp stamped.2 (f.before ++ [c.node])
          ((f.replaceFocus stamped.1 stamped.2).before ++ stamped.1 ::
            blankIf (needsGap f.kind (some stamped.1) f.after.head?) (stamped.2 + 2)) hend
        simpa [Frame.fill, replaceFocus_eq] using htail

end Cursor

end SexprEdit
