import SexprEdit.Proofs.Cursor.Offset

/-!
# Forms on their own

A form that is cut out of a source reads as what it was in there. The tokens of a node stand side by side in those of
the whole tree (`tokens_wholeFrom`), and tokens that are separate in a text stay so when the text around them is taken
away. So the reader gets the tokens of the form and nothing else.
-/

namespace SexprEdit

open Node

namespace Cursor

variable {c : Cursor} {n : Cell} {frames : List Frame}

theorem tokens_wholeFrom (n : Cell) (frames : List Frame) :
    ∃ left right, (wholeFrom n frames).tokens = left ++ n.tokens ++ right := by
  induction frames generalizing n with
  | nil => exact ⟨[], [], by simp [wholeFrom]⟩
  | cons f outer ih =>
    obtain ⟨left, right, htokens⟩ := ih (f.fill n)
    refine ⟨left ++ f.kind.opening ++ tokensAll f.before, tokensAll f.after ++ f.kind.closing ++ right, ?_⟩
    rw [wholeFrom, htokens, Frame.fill, tokens]
    simp

theorem grammatical_of_wholeFrom (h : (wholeFrom n frames).Grammatical) :
    n.Grammatical ∧ (frames ≠ [] → n.isRoot = false) := by
  induction frames generalizing n with
  | nil => exact ⟨h, fun hne => absurd rfl hne⟩
  | cons f outer ih =>
    obtain ⟨hn, hroot⟩ := (grammatical_composite_iff.mp (ih h).1).1 n (by simp)
    exact ⟨hn, fun _ => hroot⟩

end Cursor

namespace Tree

variable {start : Stamp} {source : Text} {t : Tree} {c : Cursor}

/-- A grammatical form with separate tokens is read from its text. -/
theorem read_text {n : Tree} (hn : n.Grammatical) (hroot : n.isRoot = false) (hseparate : Token.Separate n.tokens) :
    Tree.read n.text = .ok (.root [n]) := by
  have hlex : lex n.text = (Tree.root [n]).tokens.map .token := by
    refine lex_eq_tokens_iff.mpr ?_
    have htokens : (Tree.root [n]).tokens = n.tokens := by simp [Tree.root, tokens, Kind.opening, Kind.closing]
    rw [htokens]
    exact ⟨text_eq_texts hn hseparate, hseparate⟩
  have hdocument : (Tree.root [n]).Grammatical :=
    grammatical_composite_iff.mpr ⟨List.forall_mem_singleton.mpr ⟨hn, hroot⟩, by rintro m ⟨⟩⟩
  rw [Tree.read, hlex]
  exact Reader.readAll_complete rfl hdocument

theorem read_of_whole (h : Tree.read source = .ok t) (hwhole : c.whole.plain = t) (hframes : c.frames ≠ []) :
    Tree.read c.node.text = .ok (.root [c.node.plain]) := by
  obtain ⟨-, hgrammatical, hlex⟩ := Reader.readAll_sound h
  obtain ⟨-, hseparate⟩ := lex_eq_tokens_iff.mp hlex
  rw [← hwhole, plain] at hgrammatical hseparate
  rw [grammatical_map] at hgrammatical
  rw [tokens_map] at hseparate
  obtain ⟨hnode, hnodeRoot⟩ := Cursor.grammatical_of_wholeFrom hgrammatical
  obtain ⟨left, right, htokens⟩ := Cursor.tokens_wholeFrom c.node c.frames
  rw [Cursor.whole, htokens] at hseparate
  have hread := read_text (n := c.node.plain) ((grammatical_map _ _).mpr hnode)
    ((isRoot_plain _).trans (hnodeRoot hframes))
    (by rw [plain, tokens_map]; exact hseparate.append_left.append_right)
  rwa [plain, text_map] at hread

theorem read_node (h : Tree.read source = .ok t) (hwalk : Cursor.Walk (.ofTree start t) c) (hroot : c.isRoot = false) :
    Tree.read c.node.text = .ok (.root [c.node.plain]) :=
  read_of_whole h ((hwalk.plain_whole (Cursor.stamps_ofTree start t)).trans (Cursor.plain_ofTree start t))
    (by simpa [Cursor.isRoot] using hroot)

/-- Forms do not depend on what stands around them: wherever moves lead in a tree that was read, other than to the root,
the part of the source that begins at the offset of the cursor and is as long as the node is the source of the node. It
reads as that one form, and so do fragments. -/
theorem readForms_slice (h : Tree.read source = .ok t) (hwalk : Cursor.Walk (.ofTree start t) c)
    (hroot : c.isRoot = false) :
    Text.slice c.offset c.node.bytes source = c.node.text ∧
      Tree.readForms (Text.slice c.offset c.node.bytes source) = .ok [c.node.plain] ∧
        Tree.readFragment (Text.slice c.offset c.node.bytes source) = .ok c.node.plain := by
  have hc := (Cursor.steady_ofTree start t).walk hwalk
  have hframes : c.frames ≠ [] := by simpa [Cursor.isRoot] using hroot
  obtain ⟨before, after, hbytes, hsplit, -⟩ := hc.source_split (hwalk.faced trivial)
  have hsource : c.source = source := by
    have hplain : c.tree.plain = t := hc.stamps.plain_tree.trans
      ((hwalk.plain_whole (Cursor.stamps_ofTree start t)).trans (Cursor.plain_ofTree start t))
    rw [← Tree.text_of_read h, ← hplain, plain, text_map]
    rfl
  have hslice : Text.slice c.offset c.node.bytes source = c.node.text := by
    rw [← hsource, hsplit, ← hbytes, bytes, Text.slice_bytes_append]
  have hforms : Tree.readForms c.node.text = .ok [c.node.plain] := by
    have hform : c.node.plain.isForm = true := (isForm_plain c.node).trans (hc.form hframes)
    rw [Tree.readForms, read_node h hwalk hroot]
    simp [bind, Except.bind, pure, Except.pure, Tree.root, forms, children, hform]
  rw [hslice]
  refine ⟨rfl, hforms, ?_⟩
  rw [Tree.readFragment, hforms]

theorem exists_of_goto {β : Type} (start : Stamp) (source : Text) (path : List Nat) (view : Cursor → β) (value : β)
    (h : ((Tree.read source).toOption.bind fun t => ((Cursor.ofTree start t).goto path).toOption).map view = some value) :
    ∃ t c, Tree.read source = .ok t ∧ (Cursor.ofTree start t).goto path = .ok c ∧ view c = value := by
  obtain ⟨c, hgoto, hview⟩ := Option.map_eq_some_iff.mp h
  obtain ⟨t, hread, hgoto⟩ := Option.bind_eq_some_iff.mp hgoto
  exact ⟨t, c, Except.ok_of_toOption hread, Except.ok_of_toOption hgoto, hview⟩

/-- A character literal behind a tag and a comment, in front of a bracket. -/
theorem readForms_slice_tag :
    ∃ t c, Tree.read "(é #a ;b\n \\o17[x])".toList = .ok t ∧
      Cursor.Walk (.ofTree (Supply.outside 0).first t) c ∧ c.path = [0, 1] ∧
      Text.slice c.offset c.node.bytes "(é #a ;b\n \\o17[x])".toList = "#a ;b\n \\o17".toList ∧
        Tree.readForms "#a ;b\n \\o17".toList = .ok [c.node.plain] := by
  obtain ⟨t, c, hread, hgoto, hview⟩ := exists_of_goto (Supply.outside 0).first "(é #a ;b\n \\o17[x])".toList [0, 1]
    (fun c => (c.isRoot, c.path, c.node.text)) (false, [0, 1], "#a ;b\n \\o17".toList) (by decide +kernel)
  obtain ⟨hroot, hview⟩ := Prod.mk.inj hview
  obtain ⟨hpath, htext⟩ := Prod.mk.inj hview
  have hwalk : Cursor.Walk (.ofTree _ t) c := Cursor.Walk.refl.goto hgoto
  obtain ⟨hslice, hforms, -⟩ := readForms_slice hread hwalk hroot
  rw [hslice, htext] at hforms
  exact ⟨t, c, hread, hwalk, hpath, hslice.trans htext, hforms⟩

end Tree

end SexprEdit
