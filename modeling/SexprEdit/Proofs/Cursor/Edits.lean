import SexprEdit.Proofs.Cursor.Context
import SexprEdit.Proofs.Cursor.Recast

/-!
# What edits at a cursor keep

A valid cursor rests on a form of a grammatical document of which every token is in a given class (`Cursor.Valid`).
Every edit leads from a valid cursor to a valid one. If no comment begins with a hash, edits also keep the document
spaced. All edits but `Cursor.replace` write other children into one composite (`Cursor.Rewrites`), and need be looked
at there only.
-/

namespace SexprEdit

open Node

namespace Cursor

variable {P : Token → Prop} {c c' : Cursor} {d : Draft}

/-- The cursor rests on a form of a grammatical document of which every token is in a class. -/
structure Valid (P : Token → Prop) (c : Cursor) : Prop where
  steady : SteadyFrom c.fresh c.node c.frames
  form : c.node.isForm = true
  made : c.whole.Made P
  root : c.whole.isRoot = true

theorem Valid.on (h : c.Valid P) : c.On c.whole.plain :=
  ⟨h.steady, h.form, rfl⟩

theorem On.valid {t : Tree} (h : c.On t) (ht : t.Made P) (hroot : t.isRoot = true) : c.Valid P := by
  obtain ⟨hsteady, hform, rfl⟩ := h
  exact ⟨hsteady, hform, (made_map _ c.whole).mp ht, by rwa [plain, isRoot_map] at hroot⟩

/-- Moves keep all that holds of the whole tree. -/
theorem Valid.of_move (h : c.Valid P) (hmove : c'.On c.whole.plain) : c'.Valid P :=
  hmove.valid ((made_map _ c.whole).mpr h.made) (by rw [plain, isRoot_map, h.root])

theorem spaced_of_move (hmove : c'.On c.whole.plain) (h : c.whole.Spaced) : c'.whole.Spaced := by
  have hplain : c.whole.plain.Spaced := (spaced_map _ c.whole).mpr h
  rw [← hmove.whole] at hplain
  exact (spaced_map _ c'.whole).mp hplain

/-! ## Forms that are put in -/

/-- A draft that can be put into the tree of a cursor. -/
structure Ready (P : Token → Prop) (fresh : Stamp) (d : Draft) : Prop where
  keeps : KeepsBelow fresh d
  made : d.Made P
  root : d.isRoot = false

/-- A draft as it stands in the tree. -/
structure Adopted (P : Token → Prop) (d : Draft) (n : Cell) : Prop where
  made : n.Made P ∧ n.isRoot = false
  form : n.isForm = d.isForm
  spaced : n.Spaced ↔ d.Spaced

theorem Ready.adopted {fresh : Stamp} (h : Ready P fresh d) : Adopted P d (stamp fresh d).1 := by
  obtain ⟨hplain, -, -⟩ := stamp_spec d fresh h.keeps
  refine ⟨⟨?_, ?_⟩, ?_, ?_⟩
  · rw [← made_map (fun _ => ()), ← plain, hplain]
    exact (made_map _ d).mpr h.made
  · rw [← isRoot_map (fun _ => ()), ← plain, hplain, plain, isRoot_map, h.root]
  · rw [← isForm_map (fun _ => ()), ← plain, hplain, plain, isForm_map]
  · rw [← spaced_map (fun _ => ()), ← plain, hplain, plain, spaced_map]

theorem Adopted.tame {n : Cell} (h : Adopted Token.Tame d n) : ∀ k ∈ some n, k.Made Token.Tame := by
  rintro k ⟨⟩
  exact h.made.1

theorem Adopted.sound {n : Cell} (h : Adopted Token.Tame d n) : ∀ k ∈ some n, k.Sound ∧ k.isRoot = false := by
  rintro k ⟨⟩
  exact ⟨h.made.1.mono fun _ ht => ht.1, h.made.2⟩

theorem made_separator (hP : Token.Lawful P) (kind : Kind) {before : List Cell} (h : MadeAll P before) (stamp : Stamp) :
    (Frame.separator kind before stamp).Made P ∧ (Frame.separator kind before stamp).isRoot = false := by
  obtain ⟨-, hmem | heq | heq⟩ := separator_spec kind before stamp
  · exact h _ hmem
  · rw [heq]
    exact ⟨made_newline hP stamp 0, rfl⟩
  · rw [heq]
    exact ⟨made_space hP stamp, rfl⟩

theorem isForm_separator (kind : Kind) (before : List Cell) (stamp : Stamp) :
    (Frame.separator kind before stamp).isForm = false :=
  isForm_of_isWhitespace (separator_spec kind before stamp).1

/-! ## Other children for a composite -/

/-- The second cursor comes from the first by writing other children into a composite that is no mark. -/
structure Rewrites (c c' : Cursor) (kind : Kind) (old new : List Cell) : Prop where
  variadic : ∀ m, kind ≠ .mark m
  steady : SteadyFrom c'.fresh c'.node c'.frames
  form : c'.node.isForm = true
  whole : ∃ label label' outer, c.whole = wholeFrom (.composite label kind old) outer ∧
    c'.whole = wholeFrom (.composite label' kind new) outer

theorem Rewrites.valid (hP : Token.Lawful P) {kind : Kind} {old new : List Cell} (h : Rewrites c c' kind old new)
    (hc : c.Valid P) (hnew : MadeAll P old → MadeAll P new) : c'.Valid P := by
  obtain ⟨hvariadic, hsteady, hform, label, label', outer, hwhole, hwhole'⟩ := h
  have hmade := hc.made
  rw [hwhole] at hmade
  obtain ⟨hold, hkind⟩ := (made_variadic_iff hP hvariadic).mp (made_of_wholeFrom hP hmade)
  have hcomposite : (Node.composite label' kind new).Made P := (made_variadic_iff hP hvariadic).mpr ⟨hnew hold, hkind⟩
  refine ⟨hsteady, hform, ?_, ?_⟩
  · rw [hwhole']
    exact made_wholeFrom hP hmade hcomposite rfl (isRoot_composite _ _ _ _ _)
  · rw [hwhole', isRoot_wholeFrom (isRoot_composite label label' kind old new) outer, ← hwhole, hc.root]

theorem Rewrites.spaced {kind : Kind} {old new : List Cell} (h : Rewrites c c' kind old new) (hc : c.Valid Token.Tame)
    (hspaced : c.whole.Spaced)
    (hnew : MadeAll Token.Tame old → (∀ t ∈ kind.opening, t.Genuine) → ∀ label label' : Stamp,
      (Node.composite label kind old).Spaced → (Node.composite label' kind new).Spaced) : c'.whole.Spaced := by
  obtain ⟨hvariadic, -, -, label, label', outer, hwhole, hwhole'⟩ := h
  have hP := Token.lawful_tame
  have hmade := hc.made
  rw [hwhole] at hmade hspaced
  have hcomposite : (Node.composite label kind old).Made Token.Tame := made_of_wholeFrom hP hmade
  rw [hwhole']
  exact spaced_recompose hP hmade hspaced hvariadic
    (hnew (hcomposite.children hP) (hcomposite.opening hP) label label' (spaced_of_wholeFrom hspaced))

theorem Valid.poised (h : c.Valid P) : c.Steady :=
  ⟨h.steady, fun _ => h.form⟩

theorem Recasts.rewrites {outer : List Frame} {label label' : Stamp} {kind : Kind} {old new : List Cell}
    (h : Recasts c c' outer (.composite label kind old) (.composite label' kind new)) (hvariadic : ∀ m, kind ≠ .mark m)
    (hc : c.Steady) : Rewrites c c' kind old new :=
  ⟨hvariadic, (h.steady hc).stamps, h.isForm, label, label', outer, h.holds.whole, h.rests.whole⟩

/-! ## Insertion next to the current node -/

theorem insertBefore_rewrites (h : c.Valid P) (hd : Ready P c.fresh d) (hedit : c.insertBefore d = .ok c') :
    ∃ kind before after stamp stamp',
      Rewrites c c' kind (before ++ c.node :: after)
        (before ++ blankIf (needsGap kind before.getLast? (some (Node.stamp c.fresh d).1)) stamp ++
          [(Node.stamp c.fresh d).1, Frame.separator kind before stamp'] ++ c.node :: after) := by
  obtain ⟨-, f, outer, -, hvariadic, -, hrecasts⟩ := insertBefore_recasts h.poised hd.keeps rfl hedit
  exact ⟨f.kind, f.before, f.after, _, _, hrecasts.rewrites hvariadic h.poised⟩

theorem insertAfter_rewrites (h : c.Valid P) (hd : Ready P c.fresh d) (hedit : c.insertAfter d = .ok c') :
    ∃ kind before after stamp stamp',
      Rewrites c c' kind (before ++ c.node :: after)
        (before ++ c.node :: Frame.separator kind before stamp' :: (Node.stamp c.fresh d).1 ::
          (blankIf (needsGap kind (some (Node.stamp c.fresh d).1) after.head?) stamp ++ after)) := by
  obtain ⟨-, f, outer, -, hvariadic, -, hrecasts⟩ := insertAfter_recasts h.poised hd.keeps rfl hedit
  exact ⟨f.kind, f.before, f.after, _, _, hrecasts.rewrites hvariadic h.poised⟩

theorem spaced_ahead {kind : Kind} (hkind : ∀ t ∈ kind.opening, t.Genuine) {front rest : List Cell} {n sep : Cell}
    (hfronts : ∀ k ∈ front, k.Spaced) (hfront : FrontSpaced kind front)
    (hseam : runsInto kind front.getLast? (some n) = false) (hn : Adopted Token.Tame d n) (hds : d.Spaced)
    (hsep : sep.Made Token.Tame) (htrivia : sep.isForm = false) (hrests : ∀ k ∈ rest, k.Spaced)
    (hback : BackSpaced kind rest) (label : Stamp) :
    (Node.composite label kind (front ++ [n, sep] ++ rest)).Spaced := by
  refine spaced_append_iff.mpr ⟨?_, ?_, ?_, hback⟩
  · refine List.forall_mem_append.mpr ⟨List.forall_mem_append.mpr ⟨hfronts, ?_⟩, hrests⟩
    exact List.forall_mem_cons.mpr
      ⟨hn.spaced.mpr hds, List.forall_mem_singleton.mpr (spaced_of_not_isForm (by simp [htrivia]))⟩
  · rw [← List.singleton_append, ← List.append_assoc, frontSpaced_concat, frontSpaced_concat, List.getLast?_concat]
    exact ⟨⟨hfront, hseam⟩, runsInto_trivia hkind hn.sound hsep htrivia⟩
  · have hlast : (front ++ [n, sep]).getLast? = some sep := by simp
    rw [hlast]
    exact runsInto_of_trivia htrivia _

theorem spaced_behind {kind : Kind} (hkind : ∀ t ∈ kind.opening, t.Genuine) {before after rest : List Cell}
    {focus n sep : Cell} {label : Stamp} (hspaced : (Node.composite label kind (before ++ focus :: after)).Spaced)
    (hfocus : focus.Sound ∧ focus.isRoot = false) (hsep : sep.Made Token.Tame) (htrivia : sep.isForm = false)
    (hn : Adopted Token.Tame d n) (hds : d.Spaced) (hrests : ∀ k ∈ rest, k.Spaced)
    (hseam : runsInto kind (some n) rest.head? = false) (hback : BackSpaced kind rest) (label' : Stamp) :
    (Node.composite label' kind (before ++ focus :: sep :: n :: rest)).Spaced := by
  obtain ⟨hchildren, hfront, hleft, -⟩ := spaced_append_iff.mp hspaced
  refine spaced_append_iff.mpr ⟨?_, hfront, hleft, ?_⟩
  · obtain ⟨hbefores, hrest⟩ := List.forall_mem_append.mp hchildren
    refine List.forall_mem_append.mpr ⟨hbefores, List.forall_mem_cons.mpr ⟨(List.forall_mem_cons.mp hrest).1, ?_⟩⟩
    refine List.forall_mem_cons.mpr ⟨spaced_of_not_isForm (by simp [htrivia]), ?_⟩
    exact List.forall_mem_cons.mpr ⟨hn.spaced.mpr hds, hrests⟩
  · refine backSpaced_cons.mpr ⟨runsInto_trivia hkind ?_ hsep htrivia, ?_⟩
    · rintro k ⟨⟩
      exact hfocus
    · exact backSpaced_cons.mpr ⟨runsInto_of_trivia htrivia _, backSpaced_cons.mpr ⟨hseam, hback⟩⟩

theorem Valid.insertBefore (hP : Token.Lawful P) (h : c.Valid P) (hd : Ready P c.fresh d)
    (hedit : c.insertBefore d = .ok c') : c'.Valid P := by
  obtain ⟨kind, before, after, stamp, stamp', hrewrites⟩ := insertBefore_rewrites h hd hedit
  refine hrewrites.valid hP h fun hold => ?_
  obtain ⟨hbefore, hrest⟩ := madeAll_append.mp hold
  refine madeAll_append.mpr ⟨madeAll_append.mpr ⟨madeAll_append.mpr ⟨hbefore, madeAll_blankIf hP _ _⟩, ?_⟩, hrest⟩
  exact madeAll_cons.mpr ⟨hd.adopted.made, madeAll_cons.mpr ⟨made_separator hP kind hbefore stamp', madeAll_nil⟩⟩

theorem spaced_insertBefore (h : c.Valid Token.Tame) (hs : c.whole.Spaced) (hd : Ready Token.Tame c.fresh d)
    (hds : d.Spaced) (hedit : c.insertBefore d = .ok c') : c'.whole.Spaced := by
  obtain ⟨kind, before, after, stamp, stamp', hrewrites⟩ := insertBefore_rewrites h hd hedit
  refine hrewrites.spaced h hs fun hold hkind label label' hspaced => ?_
  obtain ⟨hbefore, -⟩ := madeAll_append.mp hold
  have hsep := made_separator Token.lawful_tame kind hbefore stamp'
  obtain ⟨hchildren, hfront, -, hback⟩ := spaced_append_iff.mp hspaced
  obtain ⟨hbefores, hrests⟩ := List.forall_mem_append.mp hchildren
  obtain ⟨hgap, hseam⟩ := hfront.gap hkind hbefore hd.adopted.tame stamp
  exact spaced_ahead hkind (List.forall_mem_append.mpr ⟨hbefores, spaced_blankIf _ _⟩) hgap hseam hd.adopted hds hsep.1
    (isForm_separator kind before stamp') hrests hback label'

theorem Valid.insertAfter (hP : Token.Lawful P) (h : c.Valid P) (hd : Ready P c.fresh d)
    (hedit : c.insertAfter d = .ok c') : c'.Valid P := by
  obtain ⟨kind, before, after, stamp, stamp', hrewrites⟩ := insertAfter_rewrites h hd hedit
  refine hrewrites.valid hP h fun hold => ?_
  obtain ⟨hbefore, hrest⟩ := madeAll_append.mp hold
  obtain ⟨hnode, hafter⟩ := madeAll_cons.mp hrest
  refine madeAll_append.mpr ⟨hbefore, madeAll_cons.mpr ⟨hnode, ?_⟩⟩
  refine madeAll_cons.mpr ⟨made_separator hP kind hbefore stamp', madeAll_cons.mpr ⟨hd.adopted.made, ?_⟩⟩
  exact madeAll_append.mpr ⟨madeAll_blankIf hP _ _, hafter⟩

theorem spaced_insertAfter (h : c.Valid Token.Tame) (hs : c.whole.Spaced) (hd : Ready Token.Tame c.fresh d)
    (hds : d.Spaced) (hedit : c.insertAfter d = .ok c') : c'.whole.Spaced := by
  obtain ⟨kind, before, after, stamp, stamp', hrewrites⟩ := insertAfter_rewrites h hd hedit
  refine hrewrites.spaced h hs fun hold hkind label label' hspaced => ?_
  obtain ⟨hbefore, hrest⟩ := madeAll_append.mp hold
  obtain ⟨-, hafter⟩ := madeAll_cons.mp hrest
  have hsep := made_separator Token.lawful_tame kind hbefore stamp'
  obtain ⟨hchildren, -, -, hback⟩ := spaced_append_iff.mp hspaced
  obtain ⟨hseam, hgap⟩ := (backSpaced_cons.mp hback).2.gap hkind hafter hd.adopted.sound stamp
  refine spaced_behind hkind hspaced (sound_of_madeAll hold c.node (by simp)) hsep.1
    (isForm_separator kind before stamp') hd.adopted hds ?_ hseam hgap label'
  exact List.forall_mem_append.mpr ⟨spaced_blankIf _ _, fun k hk => hchildren k (by simp [hk])⟩

/-! ## Insertion inside the current node -/

theorem insertChild_rewrites (h : c.Valid P) (hd : Ready P c.fresh d) (hedit : c.insertChild d = .ok c') :
    ∃ kind old new, Rewrites c c' kind old new ∧
      ((∃ before focus after stamp, old = before ++ focus :: after ∧ (∀ k ∈ before, k.isForm = false) ∧
          new = before ++ [(Node.stamp c.fresh d).1, Frame.separator kind before stamp] ++ focus :: after) ∨
        (∀ k ∈ old, k.isForm = false) ∧ new = (Node.stamp c.fresh d).1 :: old) := by
  obtain ⟨-, label, kind, old, new, hnode, hvariadic, -, hrecasts, hnew⟩ :=
    insertChild_recasts h.poised hd.keeps rfl hedit
  rw [hnode] at hrecasts
  refine ⟨kind, old, new, hrecasts.rewrites hvariadic h.poised, hnew.imp_left ?_⟩
  rintro ⟨before, focus, after, hold, htrivia, hnew⟩
  exact ⟨before, focus, after, _, hold, htrivia, hnew⟩

theorem appendChild_rewrites (h : c.Valid P) (hd : Ready P c.fresh d) (hedit : c.appendChild d = .ok c') :
    ∃ kind old new, Rewrites c c' kind old new ∧
      ((∃ before focus after stamp, old = before ++ focus :: after ∧ (∀ k ∈ after, k.isForm = false) ∧
          new = before ++ focus :: Frame.separator kind before stamp :: (Node.stamp c.fresh d).1 :: after) ∨
        (∀ k ∈ old, k.isForm = false) ∧ new = (Node.stamp c.fresh d).1 :: old) := by
  obtain ⟨-, label, kind, old, new, hnode, hvariadic, -, hrecasts, hnew⟩ :=
    appendChild_recasts h.poised hd.keeps rfl hedit
  rw [hnode] at hrecasts
  refine ⟨kind, old, new, hrecasts.rewrites hvariadic h.poised, hnew.imp_left ?_⟩
  rintro ⟨before, focus, after, hold, htrivia, -, hnew⟩
  exact ⟨before, focus, after, _, hold, htrivia, hnew⟩

theorem spaced_single {kind : Kind} (hvariadic : ∀ m, kind ≠ .mark m) (hkind : ∀ t ∈ kind.opening, t.Genuine)
    {ns : List Cell} (hns : MadeAll Token.Tame ns) (htrivia : ∀ k ∈ ns, k.isForm = false) {n : Cell}
    (hn : Adopted Token.Tame d n) (hds : d.Spaced) (label label' : Stamp)
    (h : (Node.composite label kind ns).Spaced) : (Node.composite label' kind (n :: ns)).Spaced := by
  obtain ⟨hchildren, -, hback⟩ := spaced_iff_backSpaced.mp h
  refine spaced_iff_backSpaced.mpr
    ⟨List.forall_mem_cons.mpr ⟨hn.spaced.mpr hds, hchildren⟩, ?_, backSpaced_cons.mpr ⟨?_, hback⟩⟩
  · exact runsInto_first hvariadic hkind (hn.sound n rfl)
  · cases ns with
    | nil => exact runsInto_none hkind hn.sound
    | cons k ns => exact runsInto_trivia hkind hn.sound (madeAll_cons.mp hns).1.1 (htrivia k (by simp))

theorem Valid.insertChild (hP : Token.Lawful P) (h : c.Valid P) (hd : Ready P c.fresh d)
    (hedit : c.insertChild d = .ok c') : c'.Valid P := by
  obtain ⟨kind, old, new, hrewrites, ⟨before, focus, after, stamp, rfl, -, rfl⟩ | ⟨-, rfl⟩⟩ :=
    insertChild_rewrites h hd hedit
  · refine hrewrites.valid hP h fun hold => ?_
    obtain ⟨hbefore, hrest⟩ := madeAll_append.mp hold
    refine madeAll_append.mpr ⟨madeAll_append.mpr ⟨hbefore, ?_⟩, hrest⟩
    exact madeAll_cons.mpr ⟨hd.adopted.made, madeAll_cons.mpr ⟨made_separator hP kind hbefore stamp, madeAll_nil⟩⟩
  · exact hrewrites.valid hP h fun hold => madeAll_cons.mpr ⟨hd.adopted.made, hold⟩

theorem spaced_insertChild (h : c.Valid Token.Tame) (hs : c.whole.Spaced) (hd : Ready Token.Tame c.fresh d)
    (hds : d.Spaced) (hedit : c.insertChild d = .ok c') : c'.whole.Spaced := by
  obtain ⟨kind, old, new, hrewrites, ⟨before, focus, after, stamp, rfl, htrivia, rfl⟩ | ⟨htrivia, rfl⟩⟩ :=
    insertChild_rewrites h hd hedit
  · refine hrewrites.spaced h hs fun hold hkind label label' hspaced => ?_
    obtain ⟨hbefore, -⟩ := madeAll_append.mp hold
    have hsep := made_separator Token.lawful_tame kind hbefore stamp
    obtain ⟨hchildren, hfront, -, hback⟩ := spaced_append_iff.mp hspaced
    obtain ⟨hbefores, hrests⟩ := List.forall_mem_append.mp hchildren
    have hseam : runsInto kind before.getLast? (some (Node.stamp c.fresh d).1) = false := by
      cases hlast : before.getLast? with
      | none => exact runsInto_first hrewrites.variadic hkind (hd.adopted.sound _ rfl)
      | some k => exact runsInto_of_trivia (htrivia k (List.mem_of_getLast? hlast)) _
    exact spaced_ahead hkind hbefores hfront hseam hd.adopted hds hsep.1 (isForm_separator kind before stamp) hrests
      hback label'
  · exact hrewrites.spaced h hs fun hold hkind label label' hspaced =>
      spaced_single hrewrites.variadic hkind hold htrivia hd.adopted hds _ label' hspaced

theorem Valid.appendChild (hP : Token.Lawful P) (h : c.Valid P) (hd : Ready P c.fresh d)
    (hedit : c.appendChild d = .ok c') : c'.Valid P := by
  obtain ⟨kind, old, new, hrewrites, ⟨before, focus, after, stamp, rfl, -, rfl⟩ | ⟨-, rfl⟩⟩ :=
    appendChild_rewrites h hd hedit
  · refine hrewrites.valid hP h fun hold => ?_
    obtain ⟨hbefore, hrest⟩ := madeAll_append.mp hold
    obtain ⟨hfocus, hafter⟩ := madeAll_cons.mp hrest
    refine madeAll_append.mpr ⟨hbefore, madeAll_cons.mpr ⟨hfocus, ?_⟩⟩
    exact madeAll_cons.mpr ⟨made_separator hP kind hbefore stamp, madeAll_cons.mpr ⟨hd.adopted.made, hafter⟩⟩
  · exact hrewrites.valid hP h fun hold => madeAll_cons.mpr ⟨hd.adopted.made, hold⟩

theorem spaced_appendChild (h : c.Valid Token.Tame) (hs : c.whole.Spaced) (hd : Ready Token.Tame c.fresh d)
    (hds : d.Spaced) (hedit : c.appendChild d = .ok c') : c'.whole.Spaced := by
  obtain ⟨kind, old, new, hrewrites, ⟨before, focus, after, stamp, rfl, htrivia, rfl⟩ | ⟨htrivia, rfl⟩⟩ :=
    appendChild_rewrites h hd hedit
  · refine hrewrites.spaced h hs fun hold hkind label label' hspaced => ?_
    obtain ⟨hbefore, hrest⟩ := madeAll_append.mp hold
    obtain ⟨-, hafter⟩ := madeAll_cons.mp hrest
    have hsep := made_separator Token.lawful_tame kind hbefore stamp
    obtain ⟨hchildren, -, -, hback⟩ := spaced_append_iff.mp hspaced
    have hseam : runsInto kind (some (Node.stamp c.fresh d).1) after.head? = false := by
      cases hhead : after.head? with
      | none => exact runsInto_none hkind hd.adopted.sound
      | some k =>
        have hmem := List.mem_of_head? hhead
        exact runsInto_trivia hkind hd.adopted.sound (hafter k hmem).1 (htrivia k hmem)
    exact spaced_behind hkind hspaced (sound_of_madeAll hold focus (by simp)) hsep.1
      (isForm_separator kind before stamp) hd.adopted hds (fun k hk => hchildren k (by simp [hk])) hseam
      (backSpaced_cons.mp hback).2 label'
  · exact hrewrites.spaced h hs fun hold hkind label label' hspaced =>
      spaced_single hrewrites.variadic hkind hold htrivia hd.adopted hds _ label' hspaced

/-! ## Removal -/

theorem dropBlanksRight_prefix (ns : List Cell) : dropBlanksRight ns <+: ns :=
  (exists_dropBlanksRight ns).imp fun _ hblanks => hblanks.1.symm

theorem remove_rewrites (h : c.Valid P) (hedit : c.remove = .ok c') :
    ∃ kind before after before' after' stamp, before' <+: before ∧ after' <:+ after ∧
      Rewrites c c' kind (before ++ c.node :: after)
        (before' ++ (blankIf (needsGap kind before'.getLast? after'.head?) stamp ++ after')) := by
  obtain ⟨f, outer, before', after', -, hvariadic, htrims, -, hrecasts⟩ := remove_recasts h.poised hedit
  have hbefore : before' <+: f.before := htrims.left.imp fun _ hblanks => hblanks.1.symm
  have hafter : after' <:+ f.after := htrims.right.imp fun _ hblanks => hblanks.1.symm
  exact ⟨f.kind, f.before, f.after, before', after', _, hbefore, hafter, hrecasts.rewrites hvariadic h.poised⟩

theorem Valid.remove (hP : Token.Lawful P) (h : c.Valid P) (hedit : c.remove = .ok c') : c'.Valid P := by
  obtain ⟨kind, before, after, before', after', stamp, hbefore', hafter', hrewrites⟩ := remove_rewrites h hedit
  refine hrewrites.valid hP h fun hold => ?_
  obtain ⟨hbefore, hrest⟩ := madeAll_append.mp hold
  refine madeAll_append.mpr ⟨fun k hk => hbefore k (hbefore'.subset hk), madeAll_append.mpr ⟨madeAll_blankIf hP _ _, ?_⟩⟩
  exact fun k hk => (madeAll_cons.mp hrest).2 k (hafter'.subset hk)

theorem spaced_remove (h : c.Valid Token.Tame) (hs : c.whole.Spaced) (hedit : c.remove = .ok c') : c'.whole.Spaced := by
  obtain ⟨kind, before, after, before', after', stamp, hbefore', hafter', hrewrites⟩ := remove_rewrites h hedit
  refine hrewrites.spaced h hs fun hold hkind label label' hspaced => ?_
  obtain ⟨more, rfl⟩ := hbefore'
  obtain ⟨less, rfl⟩ := hafter'
  have hbefore : MadeAll Token.Tame before' := fun k hk => hold k (by simp [hk])
  have hafter : MadeAll Token.Tame after' := fun k hk => hold k (by simp [hk])
  obtain ⟨hchildren, hfront, -, hback⟩ := spaced_append_iff.mp hspaced
  rw [← List.cons_append] at hback
  obtain ⟨hseam, hgap⟩ := hback.right.gap hkind hafter
    (fun k hk => sound_of_madeAll hbefore k (List.mem_of_getLast? hk)) stamp
  refine spaced_append_iff.mpr ⟨?_, hfront.left, hseam, hgap⟩
  refine List.forall_mem_append.mpr ⟨fun k hk => hchildren k (by simp [hk]), ?_⟩
  exact List.forall_mem_append.mpr ⟨spaced_blankIf _ _, fun k hk => hchildren k (by simp [hk])⟩

end Cursor

end SexprEdit
