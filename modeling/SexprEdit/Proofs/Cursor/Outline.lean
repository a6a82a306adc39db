import SexprEdit.Proofs.Cursor.Operation

/-!
# Operations on trees without trivia

Seen without trivia, a cursor is a tree and a path in it, and every operation is the operation on lists of children that
its name says (`Outline.Step`). With trivia, every child that was there before is still there and in its order, but for
the node that is replaced or removed and the blanks next to a removed one. So no other comment is lost.
-/

namespace SexprEdit

open Node

namespace Node

variable {ι κ : Type}

theorem subtree?_append (p q : List Nat) (n : Node ι) : subtree? (p ++ q) n = (subtree? p n).bind (subtree? q) := by
  induction p generalizing n with
  | nil => rfl
  | cons k p ih =>
    rw [List.cons_append, subtree?, subtree?, Option.bind_assoc]
    exact congrArg _ (funext ih)

theorem comments_map (f : ι → κ) (n : Node ι) : (n.map f).comments = n.comments := by
  induction n using child_induction with
  | node n ih =>
    cases n with
    | composite label kind children =>
      have hall : ∀ ns : List (Node ι), (∀ m ∈ ns, (m.map f).comments = m.comments) →
          commentsAll (ns.map (map f)) = commentsAll ns := by
        intro ns hns
        induction ns with
        | nil => rfl
        | cons m ns ihns =>
          obtain ⟨hm, hns⟩ := List.forall_mem_cons.mp hns
          rw [List.map_cons, commentsAll_cons, commentsAll_cons, hm, ihns hns]
      rw [map_composite, comments, comments, hall children ih]
    | trivia label t => cases t <;> rfl
    | atom label a => rfl

theorem comments_plain (n : Node ι) : n.plain.comments = n.comments :=
  comments_map _ n

theorem Inserts.shape_last {n t t' : Tree} (hn : n.isForm = true) (h : Inserts (formCount t.children) n t t') :
    t'.shape = t.shape.mapChildren (· ++ [n.shape]) := by
  have hshape := h.shape hn
  obtain ⟨kind, front, left, right, back, -, -, -, -, rfl, rfl⟩ := h
  have hlast := insertIdx_length (shapeAll (front ++ back)) [] n.shape
  rw [List.append_nil, length_shapeAll] at hlast
  rw [hshape, Node.shape, mapChildren, mapChildren, children, hlast]

end Node

/-- A tree without trivia and a path in it. -/
structure Outline where
  tree : Tree
  path : List Nat

/-- What the operations do to a tree without trivia. -/
inductive Outline.Step : Operation → Outline → Outline → Prop where
  | move {direction : Direction} {t : Tree} {p p' : List Nat} : Step (.move direction) ⟨t, p⟩ ⟨t, p'⟩
  | goto {t : Tree} {p p' : List Nat} : Step (.goto p') ⟨t, p⟩ ⟨t, p'⟩
  | replaceAll {d : Draft} {t : Tree} : Step (.replace d) ⟨t, []⟩ ⟨d.shape.document, []⟩
  | replace {d : Draft} {t : Tree} {p : List Nat} (hp : p ≠ []) :
      Step (.replace d) ⟨t, p⟩ ⟨t.modifyAt (fun _ => d.shape) p, p⟩
  | insertBefore {d : Draft} {t : Tree} {q : List Nat} {k : Nat} :
      Step (.insertBefore d) ⟨t, q ++ [k]⟩ ⟨t.insertAt q k d.shape, q ++ [k + 1]⟩
  | insertAfter {d : Draft} {t : Tree} {q : List Nat} {k : Nat} :
      Step (.insertAfter d) ⟨t, q ++ [k]⟩ ⟨t.insertAt q (k + 1) d.shape, q ++ [k]⟩
  | insertChild {d : Draft} {t : Tree} {p : List Nat} : Step (.insertChild d) ⟨t, p⟩ ⟨t.insertAt p 0 d.shape, p⟩
  | appendChild {d : Draft} {t : Tree} {p : List Nat} :
      Step (.appendChild d) ⟨t, p⟩ ⟨t.modifyAt (mapChildren (· ++ [d.shape])) p, p⟩
  | remove {t parent : Tree} {q : List Nat} {k : Nat} (h : t.subtree? q = some parent) :
      Step .remove ⟨t, q ++ [k]⟩
        ⟨t.eraseAt q k,
          if k + 1 < parent.children.length then q ++ [k] else if 0 < k then q ++ [k - 1] else q⟩

namespace Operation

/-- The comments that go with what an operation takes out at a node. -/
def lost {ι : Type} (n : Node ι) : Operation → List Text
  | replace _ | remove => n.comments
  | _ => []

/-- The comments that come with what an operation puts in. -/
def gained (op : Operation) : List Text :=
  (op.form?.map comments).getD []

end Operation

namespace Cursor

variable {strict : Prop} {c c' : Cursor} {op : Operation}

def outline (c : Cursor) : Outline :=
  ⟨c.tree.shape, c.path⟩

theorem subtree?_wholeFrom {n : Cell} {frames : List Frame} (hn : frames ≠ [] → n.isForm = true) :
    (wholeFrom n frames).shape.subtree? (trail frames) = some n.shape := by
  induction frames generalizing n with
  | nil => rfl
  | cons f outer ih =>
    have hchild : (f.fill n).shape.subtree? [f.index] = some n.shape := by
      rw [subtree?, Frame.fill, Node.shape, children, shapeAll_append, shapeAll_cons, if_pos (hn (by simp)), Frame.index,
        ← length_shapeAll, List.getElem?_append_right (Nat.le_refl _), Nat.sub_self]
      rfl
    rw [trail, List.map_cons, List.reverse_cons, subtree?_append]
    exact (congrArg (Option.bind · _) (ih (n := f.fill n) fun _ => rfl)).trans hchild

theorem Steady.subtree? (h : c.Steady) : c.whole.shape.subtree? c.path = some c.node.shape :=
  subtree?_wholeFrom h.form

theorem Steady.shape_tree (h : c.Steady) : c.tree.shape = c.whole.plain.shape := by
  rw [← shape_plain, h.stamps.plain_tree]

theorem Steady.comments_tree (h : c.Steady) : c.tree.comments = c.whole.plain.comments := by
  rw [← comments_plain, h.stamps.plain_tree]

theorem shape_document {n : Tree} (hn : n.isForm = true) : n.document.shape = n.shape.document := by
  rw [Node.document, Node.document, isRoot_shape]
  by_cases hroot : n.isRoot = true
  · rw [if_pos hroot, if_pos hroot]
  · rw [if_neg hroot, if_neg hroot, Tree.root, Tree.root, Node.shape, shapeAll_cons, if_pos hn, shapeAll_nil]

/-! ## Paths that are followed -/

theorem Steady.path_right (h : c.Steady) (hmove : c.right = .ok c') {q : List Nat} {k : Nat} (hpath : c.path = q ++ [k]) :
    c'.path = q ++ [k + 1] := by
  obtain ⟨node, frames, fresh⟩ := c
  cases frames with
  | nil => cases hmove
  | cons f outer =>
    rw [Cursor.right] at hmove
    cases hcut : cutAtFirst? f.after with
    | none => simp [hcut] at hmove
    | some cut =>
      simp only [hcut, Except.ok.injEq] at hmove
      subst hmove
      obtain ⟨stamp, hsettle, -⟩ := SteadyFrom.settle h.stamps
      have hform : node.isForm = true := h.form (by simp)
      obtain ⟨rfl, hk⟩ := List.append_inj' (path_cons.symm.trans hpath) rfl
      obtain rfl : f.index = k := List.singleton_inj.mp hk
      rw [path_cons, hsettle, Frame.index, Frame.toRight, formCount_append, formCount_cons_eq, if_pos hform,
        formCount_eq_zero (cutAtFirst?_eq_some hcut).2]
      rfl

theorem Steady.path_rightBy {j : Nat} (h : c.Steady) (hmove : rightBy j c = .ok c') {q : List Nat} {k : Nat}
    (hpath : c.path = q ++ [k]) : c'.path = q ++ [k + j] := by
  induction j generalizing c k with
  | zero =>
    obtain rfl := Except.ok.inj hmove
    exact hpath
  | succ j ih =>
    rw [rightBy] at hmove
    obtain ⟨next, hright, hmove⟩ := Except.exists_ok_of_bind hmove
    have hnext := ih (h.walk (Walk.refl.right hright)) hmove (h.path_right hright hpath)
    rw [hnext]
    congr 2
    omega

theorem path_down (hmove : c.down = .ok c') : c'.path = c.path ++ [0] := by
  obtain ⟨node, frames, fresh⟩ := c
  cases node with
  | composite label kind children =>
    rw [Cursor.down] at hmove
    cases hcut : cutAtFirst? children with
    | none => simp [hcut] at hmove
    | some cut =>
      simp only [hcut, Except.ok.injEq] at hmove
      subst hmove
      rw [toChild, path_cons, Frame.index, formCount_eq_zero (cutAtFirst?_eq_some hcut).2]
      rfl
  | _ => cases hmove

theorem Steady.path_follow {path : List Nat} (h : c.Steady) (hmove : c.follow path = .ok c') :
    c'.path = c.path ++ path := by
  induction path generalizing c with
  | nil =>
    obtain rfl := Except.ok.inj hmove
    exact (List.append_nil _).symm
  | cons k path ih =>
    rw [follow] at hmove
    obtain ⟨first, hdown, hmove⟩ := Except.exists_ok_of_bind hmove
    obtain ⟨next, hright, hmove⟩ := Except.exists_ok_of_bind hmove
    have hfirst := h.walk (Walk.refl.down hdown)
    have hnext := hfirst.path_rightBy hright (path_down hdown)
    rw [ih (hfirst.walk (Walk.refl.rightBy hright)) hmove, hnext, Nat.zero_add, List.append_assoc]
    rfl

theorem Steady.path_goto {path : List Nat} (h : c.Steady) (hmove : c.goto path = .ok c') : c'.path = path := by
  have hroot : c.root.path = [] := by rw [Cursor.path, Cursor.root, frames_rootFrom]; rfl
  rw [(h.walk Walk.refl.root).path_follow hmove, hroot, List.nil_append]

end Cursor

namespace Operation

open Cursor

variable {strict : Prop} {c c' : Cursor} {op : Operation}

theorem isForm_of_run (h : op.run c = .ok c') : ∀ d ∈ op.form?, d.isForm = true := by
  intro d hd
  cases op with
  | move _ | goto _ | remove => cases hd
  | replace _ =>
    obtain rfl := Option.some.inj hd
    exact (replace_eq_ok rfl h).1
  | insertBefore _ =>
    obtain rfl := Option.some.inj hd
    exact (insertBefore_eq_ok rfl h).1
  | insertAfter _ =>
    obtain rfl := Option.some.inj hd
    exact (insertAfter_eq_ok rfl h).1
  | insertChild _ =>
    obtain rfl := Option.some.inj hd
    exact (insertChild_eq_ok rfl h).1
  | appendChild _ =>
    obtain rfl := Option.some.inj hd
    exact (appendChild_eq_ok rfl h).1

/-- One operation, seen without trivia. -/
theorem step_run (hc : c.Steady) (hop : op.Fits strict c.fresh) (h : op.run c = .ok c') :
    Outline.Step op c.outline c'.outline := by
  have hc' := steady_run hc hop h
  have hforms := isForm_of_run h
  rw [outline, outline, hc.shape_tree, hc'.shape_tree]
  cases op with
  | move direction =>
    rw [(Direction.walk h).plain_whole hc.stamps]
    exact .move
  | goto path =>
    rw [(Walk.refl.goto h).plain_whole hc.stamps, hc.path_goto h]
    exact .goto
  | replace d =>
    have hform : d.plain.isForm = true := (isForm_plain d).trans (hforms d rfl)
    obtain ⟨hpath, hkeeps⟩ := replace_keeps hc (hop d rfl).keeps h
    rw [hpath]
    by_cases hroot : c.path = []
    · rw [if_pos hroot] at hkeeps
      rw [hroot, hkeeps, shape_document hform, shape_plain d]
      exact .replaceAll
    · rw [if_neg hroot] at hkeeps
      rw [hkeeps.shape (f := fun _ => d.shape) (fun _ hpad => hpad) ?_]
      · exact .replace hroot
      · rintro m m' ⟨-, rfl⟩
        exact shape_plain d
  | insertBefore d =>
    have hform : d.plain.isForm = true := (isForm_plain d).trans (hforms d rfl)
    obtain ⟨q, k, hpath, hpath', hedited⟩ := insertBefore_keeps hc (hop d rfl).keeps h
    have hshape := hedited.shape padding_of_eq_nil fun _ _ hinserts => hinserts.shape hform
    rw [hpath, hpath', hshape, shape_plain d]
    exact .insertBefore
  | insertAfter d =>
    have hform : d.plain.isForm = true := (isForm_plain d).trans (hforms d rfl)
    obtain ⟨q, k, hpath, hpath', hedited⟩ := insertAfter_keeps hc (hop d rfl).keeps h
    have hshape := hedited.shape padding_of_eq_nil fun _ _ hinserts => hinserts.shape hform
    rw [hpath, hpath', hshape, shape_plain d]
    exact .insertAfter
  | insertChild d =>
    have hform : d.plain.isForm = true := (isForm_plain d).trans (hforms d rfl)
    obtain ⟨hpath, hedited⟩ := insertChild_keeps hc (hop d rfl).keeps h
    have hshape := hedited.shape padding_of_eq_nil fun _ _ hinserts => hinserts.shape hform
    rw [hpath, hshape, shape_plain d]
    exact .insertChild
  | appendChild d =>
    have hform : d.plain.isForm = true := (isForm_plain d).trans (hforms d rfl)
    obtain ⟨hpath, hedited⟩ := appendChild_keeps hc (hop d rfl).keeps h
    have hshape := hedited.shape padding_of_eq_nil fun _ _ hinserts => hinserts.shape_last hform
    rw [hpath, hshape, shape_plain d]
    exact .appendChild
  | remove =>
    obtain ⟨f, outer, hframes, hpath, hedited⟩ := remove_keeps hc h
    have hnode : c.node.plain.isForm = true := (isForm_plain c.node).trans (hc.form (by simp [hframes]))
    have hshape := hedited.shape padding_of_eq_nil fun _ _ hremoves => hremoves.shape hnode
    have hparent : c.whole.plain.shape.subtree? (trail outer) = some (f.fill c.node).shape := by
      rw [shape_plain, whole, hframes]
      exact subtree?_wholeFrom (n := f.fill c.node) fun _ => rfl
    -- what follows the node decides where the cursor goes
    have hlength : (f.fill c.node).shape.children.length = f.index + 1 + formCount f.after := by
      rw [Frame.fill, Node.shape, children, length_shapeAll, formCount_append, formCount_cons_eq,
        if_pos (hc.form (by simp [hframes])), Frame.index, Nat.add_assoc]
    have hstep := Outline.Step.remove (k := f.index) hparent
    rw [hlength] at hstep
    simp only [Nat.lt_add_right_iff_pos] at hstep
    rw [path_of_frames hframes, hpath, hshape]
    exact hstep

theorem gained_eq {d : Draft} (h : op.form? = some d) : op.gained = d.plain.comments := by
  rw [gained, h, comments_plain]
  rfl

/-- The comments outside what is taken out and put in stay as they are. -/
theorem comments_run (hc : c.Steady) (hop : op.Fits strict c.fresh) (h : op.run c = .ok c') :
    ∃ before after, c.tree.comments = before ++ op.lost c.node ++ after ∧
      c'.tree.comments = before ++ op.gained ++ after := by
  have hkeeps := keeps_run hc hop h
  rw [hc.comments_tree, (steady_run hc hop h).comments_tree]
  cases op with
  | move direction => exact ⟨[], _, rfl, congrArg comments hkeeps⟩
  | goto path => exact ⟨[], _, rfl, congrArg comments hkeeps⟩
  | replace d =>
    rw [gained_eq rfl, lost, ← comments_plain c.node]
    by_cases hroot : c.path = []
    · have hframes : c.frames = [] := by simpa [Cursor.path] using hroot
      rw [Operation.Keeps, if_pos hroot] at hkeeps
      refine ⟨[], [], ?_, ?_⟩
      · rw [whole, hframes, List.nil_append, List.append_nil]
        rfl
      · rw [hkeeps, Node.document, List.nil_append, List.append_nil]
        split_ifs
        · rfl
        · exact List.append_nil _
    · rw [Operation.Keeps, if_neg hroot] at hkeeps
      refine hkeeps.comments (fun _ hpad => hpad) ?_
      rintro m m' ⟨rfl, rfl⟩
      exact ⟨[], [], by simp, by simp⟩
  | insertBefore d =>
    obtain ⟨q, k, -, hedited⟩ := hkeeps
    rw [gained_eq rfl]
    exact hedited.comments padding_of_eq_nil fun _ _ hinserts => hinserts.comments
  | insertAfter d =>
    obtain ⟨q, k, -, hedited⟩ := hkeeps
    rw [gained_eq rfl]
    exact hedited.comments padding_of_eq_nil fun _ _ hinserts => hinserts.comments
  | insertChild d =>
    rw [gained_eq rfl]
    exact Edited.comments padding_of_eq_nil (fun _ _ hinserts => hinserts.comments) hkeeps
  | appendChild d =>
    rw [gained_eq rfl]
    exact Edited.comments padding_of_eq_nil (fun _ _ hinserts => hinserts.comments) hkeeps
  | remove =>
    obtain ⟨q, k, -, hedited⟩ := hkeeps
    rw [lost, ← comments_plain c.node]
    exact hedited.comments padding_of_eq_nil fun _ _ hremoves => hremoves.comments

/-- From any tree and after any operations, the path of a cursor leads to its node, and an operation that succeeds acts
on the tree without trivia as its name says. With trivia, it changes the tree at that place only, and all comments
outside what it takes out stay, in their order. -/
theorem acts_as_named {start : Stamp} {t : Tree} (hreach : Runs False (ofTree start t) c) (hop : op.Fits False c.fresh)
    (hrun : op.run c = .ok c') :
    c.tree.shape.subtree? c.path = some c.node.shape ∧ c'.tree.shape.subtree? c'.path = some c'.node.shape ∧
      Outline.Step op c.outline c'.outline ∧ op.Keeps c.path c.node.plain c.tree.plain c'.tree.plain ∧
        ∃ before after, c.tree.comments = before ++ op.lost c.node ++ after ∧
          c'.tree.comments = before ++ op.gained ++ after := by
  have hc := hreach.steady (steady_ofTree start t)
  have hc' := steady_run hc hop hrun
  refine ⟨?_, ?_, step_run hc hop hrun, ?_, comments_run hc hop hrun⟩
  · rw [hc.shape_tree, shape_plain]
    exact hc.subtree?
  · rw [hc'.shape_tree, shape_plain]
    exact hc'.subtree?
  · rw [hc.stamps.plain_tree, hc'.stamps.plain_tree]
    exact keeps_run hc hop hrun

/-- A form put in behind a comment, on a line of its own. -/
theorem acts_as_named_comment :
    ∃ c c', Runs False (ofTree (Supply.outside 0).first
        (.root [.composite () (.bracket .list) [.atom () ⟨.symbol, ['a']⟩,
        .trivia () (.comment [';']), .trivia () (.whitespace ['\n']), .atom () ⟨.symbol, ['b']⟩]])) c ∧
      (insertBefore (.atom none ⟨.symbol, ['c']⟩)).run c = .ok c' ∧ c'.source = "(a;\nc\nb)".toList ∧
        c'.tree.shape.subtree? c'.path = some c'.node.shape ∧
          Outline.Step (insertBefore (.atom none ⟨.symbol, ['c']⟩)) c.outline c'.outline := by
  have hreach : Runs False (ofTree (Supply.outside 0).first
      (.root [.composite () (.bracket .list) [.atom () ⟨.symbol, ['a']⟩,
      .trivia () (.comment [';']), .trivia () (.whitespace ['\n']), .atom () ⟨.symbol, ['b']⟩]])) _ :=
    Runs.refl.step (.goto [0, 1]) (by rintro d ⟨⟩) rfl
  have hfits : (insertBefore (.atom none ⟨.symbol, ['c']⟩)).Fits False ⟨6, .outside 0⟩ := by
    rintro d ⟨⟩
    exact ⟨rfl, False.elim⟩
  obtain ⟨-, hpath, hstep, -⟩ := acts_as_named hreach hfits rfl
  exact ⟨_, _, hreach, rfl, by decide +kernel, hpath, hstep⟩

end Operation

end SexprEdit
