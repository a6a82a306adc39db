import SexprEdit.Proofs.Cursor.Context
import SexprEdit.Proofs.Cursor.Tour
import SexprEdit.Proofs.Reader.Excerpt

/-!
# Replacing a form by itself

In a document that was read no form runs into what follows it, at any depth. So where a form takes its own place again,
no gap is needed beside it (`replaceFocus_of_spaced`), and what keeps its end apart from the text further out finds
nothing to do (`keepApart_of_spaced`). Since the text of a form reads as that form, replacing it by its own text gives
the same document.
-/

namespace SexprEdit

open Node

theorem Node.needsGap_of_runsInto {ι : Type} {kind : Kind} {left right : Option (Node ι)}
    (h : runsInto kind left right = false) : needsGap kind left right = false := by
  rw [runsInto] at h
  rw [needsGap, Bool.and_right_comm, h, Bool.false_and]

namespace Cursor

variable {c : Cursor} {n : Cell} {frames outer : List Frame} {f : Frame} {t : Tree} {source : Text}

theorem keepApart_of_spaced (fresh : Stamp) (hform : n.isForm = true) (hsound : (wholeFrom n frames).Sound)
    (hspaced : (wholeFrom n frames).Spaced) : Frame.keepApart n.tailText fresh frames = frames := by
  induction frames generalizing n with
  | nil => rfl
  | cons f outer ih =>
    have hP := Token.lawful_genuine
    have hfill : (f.fill n).Sound := made_of_wholeFrom hP hsound
    have hafter : MadeAll Token.Genuine f.after := (madeAll_cons.mp (madeAll_append.mp (hfill.children hP)).2).2
    obtain ⟨-, -, -, hright, -⟩ := Frame.spaced_fill_iff.mp (spaced_of_wholeFrom hspaced)
    rw [Frame.keepApart]
    rcases f.following?_cases hP hafter with ⟨hnone, -⟩ | ⟨hempty, hnil, hcloser⟩ | ⟨text, hsome, hne, -, htext⟩
    · rw [hnone]
    · -- the form ends the mark around it, so the search goes on from the end of that mark
      have htail : (f.fill n).tailText = n.tailText := by
        rw [Frame.fill, hnil, tailText_composite_last _ _ _ hcloser]
      have hout := ih (n := f.fill n) rfl hsound hspaced
      rw [htail] at hout
      simp [hempty, hout]
    · have hclear : fuses n.tailText text = false := by
        rw [runsInto, Option.map_some, Option.getD_some, ← htext] at hright
        simpa [hform] using hright
      simp [hsome, hne, hclear]

theorem replaceFocus_of_spaced (fresh : Stamp) (hspaced : (f.fill n).Spaced) :
    f.replaceFocus n fresh = ⟨fresh, f.kind, f.before, n, f.after⟩ := by
  obtain ⟨-, -, hleft, hright, -⟩ := Frame.spaced_fill_iff.mp hspaced
  rw [Frame.replaceFocus, needsGap_of_runsInto hleft, needsGap_of_runsInto hright]
  simp [blankIf]

theorem keepApartOutside_of_spaced (fresh : Stamp) (hform : n.isForm = true) (hsound : (wholeFrom n (f :: outer)).Sound)
    (hspaced : (wholeFrom n (f :: outer)).Spaced) :
    Frame.keepApartOutside n.tailText fresh (f :: outer) = f :: outer := by
  have hapart := keepApart_of_spaced fresh hform hsound hspaced
  rw [Frame.keepApartOutside]
  rw [Frame.keepApart] at hapart
  cases hfollowing : f.following? with
  | none => rfl
  | some following =>
    cases following with
    | nil => simpa [hfollowing] using hapart
    | cons => rfl

/-- Putting a node of a spaced tree in its own place again changes nothing but stamps. -/
theorem Steady.replace_itself (hc : c.Steady) (hsound : c.whole.Sound) (hspaced : c.whole.Spaced) (hframes : c.frames ≠ []) :
    ∃ c', c.replace c.node.plain.draft = .ok c' ∧ c'.Steady ∧ c'.whole.plain = c.whole.plain ∧ c'.path = c.path := by
  obtain ⟨f, outer, hcons⟩ := List.exists_cons_of_ne_nil hframes
  have hdraft : KeepsBelow c.fresh c.node.plain.draft := keepsBelow_draft _ _
  have hform : c.node.plain.draft.isForm = true := by rw [draft, isForm_map, isForm_plain, hc.form hframes]
  have hplain : (stamp c.fresh c.node.plain.draft).1.plain = c.node.plain := by
    rw [plain_of_stamp hdraft rfl, plain_draft]
  generalize hstamped : stamp c.fresh c.node.plain.draft = stamped at hplain
  obtain ⟨n, later⟩ := stamped
  have hwhole : ∀ label, (wholeFrom n (⟨label, f.kind, f.before, n, f.after⟩ :: outer)).plain = c.whole.plain := by
    intro label
    rw [whole, hcons, wholeFrom, wholeFrom]
    exact plain_wholeFrom (by rw [Frame.plain_fill, Frame.plain_fill, hplain]) outer
  have hnform : n.isForm = true := by rw [← isForm_plain, hplain, isForm_plain, hc.form hframes]
  have hsound : ∀ label, (wholeFrom n (⟨label, f.kind, f.before, n, f.after⟩ :: outer)).Sound := fun label =>
    (made_map _ _).mp (hwhole label ▸ (made_map _ _).mpr hsound : Sound (plain _))
  have hspaced : ∀ label, (wholeFrom n (⟨label, f.kind, f.before, n, f.after⟩ :: outer)).Spaced := fun label =>
    (spaced_map _ _).mp (hwhole label ▸ (spaced_map _ _).mpr hspaced : Spaced (plain _))
  have hreplace : c.replace c.node.plain.draft =
      .ok ⟨n, ⟨later, f.kind, f.before, n, f.after⟩ :: outer, later + 5⟩ := by
    rw [← keepApartOutside_of_spaced (later + 3) hnform (hsound later) (hspaced later),
      ← replaceFocus_of_spaced later (spaced_of_wholeFrom (hspaced f.stamp)), Cursor.replace, checkForm, if_pos hform]
    simp only [adopt, hstamped, hcons]
    rfl
  have hfits : (Operation.replace c.node.plain.draft).Fits False c.fresh := by
    rintro d ⟨⟩
    exact ⟨hdraft, False.elim⟩
  exact ⟨_, hreplace, Operation.steady_run hc hfits hreplace, hwhole later, (replace_keeps hc hdraft hreplace).1⟩

theorem readFragment_of_whole (h : Tree.read source = .ok t) (hwhole : c.whole.plain = t) (hframes : c.frames ≠ [])
    (hform : c.node.isForm = true) : Tree.readFragment c.node.text = .ok c.node.plain := by
  rw [Tree.readFragment, Tree.readForms, Tree.read_of_whole h hwhole hframes]
  simp [bind, Except.bind, pure, Except.pure, Tree.root, forms, children, hform]

/-- A form inside a document that was read may be replaced by its own text. That succeeds and gives the same tree, with
no blank put anywhere, so the same source, and the cursor keeps its path. -/
theorem replace_own_text (config : Config) (h : Tree.read source = .ok t) (hc : c.Within t) (hroot : c.isRoot = false) :
    ∃ c', Mutation.apply config c (.replace c.node.text) = .ok ⟨c', none⟩ ∧ c'.tree.plain = t ∧ c'.source = source ∧
      c'.path = c.path := by
  obtain ⟨-, hsound, hspaced⟩ := Tree.sound_of_read h
  have hframes : c.frames ≠ [] := by simpa [Cursor.isRoot] using hroot
  rw [← hc.whole, plain] at hsound hspaced
  obtain ⟨c', hreplace, hc', hwhole, hpath⟩ :=
    hc.steady.replace_itself ((made_map _ _).mp hsound) ((spaced_map _ _).mp hspaced) hframes
  have hfragment := readFragment_of_whole h hc.whole hframes (hc.steady.form hframes)
  have htree : c'.tree.plain = t := by rw [hc'.stamps.plain_tree, hwhole, hc.whole]
  refine ⟨c', ?_, htree, ?_, hpath⟩
  · rw [Mutation.apply, Mutation.withFragment, hfragment]
    simp [bind, Except.bind, hreplace, Mutation.moved]
  · rw [Cursor.source, ← Tree.text_of_read h, ← htree, plain, text_map]

/-- A mark between two others, behind a comment. What follows it directly is out of sight of its own frame. -/
theorem replace_own_text_marks :
    ∃ t c c', Tree.read "[;c\n'~x@y]".toList = .ok t ∧ c.Within t ∧ c.path = [0, 0, 0] ∧ c.node.text = "~x".toList ∧
      Mutation.apply {} c (.replace "~x".toList) = .ok ⟨c', none⟩ ∧ c'.tree.plain = t ∧
        c'.source = "[;c\n'~x@y]".toList ∧ c'.path = [0, 0, 0] := by
  obtain ⟨t, c, hread, hgoto, hview⟩ := Tree.exists_of_goto (Supply.outside 0).first
    "[;c\n'~x@y]".toList [0, 0, 0] (fun c => (c.isRoot, c.path, c.node.text)) (false, [0, 0, 0], "~x".toList)
    (by decide +kernel)
  obtain ⟨hroot, hview⟩ := Prod.mk.inj hview
  obtain ⟨hpath, htext⟩ := Prod.mk.inj hview
  have hc : c.Within t := (within_ofTree _ t).goto hgoto
  obtain ⟨c', happly, htree, hsource, hpath'⟩ := replace_own_text {} hread hc hroot
  rw [htext] at happly
  exact ⟨t, c, c', hread, hc, hpath, htext, happly, htree, hsource, hpath'.trans hpath⟩

end Cursor

end SexprEdit
