import Mathlib.Data.List.Forall2
import SexprEdit.Proofs.Cursor.Operation

/-!
# Frames out of step

After an edit the frames further out still hold the composite below them as it was before. What a frame has of it is out
of date only inside: its kind, its place and its siblings are right (`FacedFrom`). Paths, offsets and the search for a
binding form look at nothing else. So a cursor tells the same about itself as one that follows its path from the root
of the whole tree, where every frame is in step (`Cursor.Retraces`).
-/

namespace SexprEdit

open Node

/-! ## What frames tell -/

namespace Node

variable {ι : Type}

/-- What can be told of a node without a look into its children. -/
def skin : Node ι → Tree
  | composite _ kind children => composite () kind (children.map face)
  | n => n.face

@[simp] theorem face_plain (n : Node ι) : n.plain.face = n.face := by
  cases n with
  | composite label kind children => rw [plain_composite]; rfl
  | _ => rfl

@[simp] theorem isForm_face (n : Node ι) : n.face.isForm = n.isForm := by
  cases n <;> rfl

@[simp] theorem symbol?_face (n : Node ι) : n.face.symbol? = n.symbol? := by
  cases n <;> rfl

@[simp] theorem startsWithNewline_face (n : Node ι) : n.face.startsWithNewline = n.startsWithNewline := by
  cases n <;> rfl

theorem isForm_comp_face : (isForm ∘ face : Node ι → Bool) = isForm :=
  funext isForm_face

theorem headSymbol?_skin (n : Node ι) : n.skin.headSymbol? = n.headSymbol? := by
  cases n with
  | composite label kind children =>
    have hfind : ((children.map face).find? isForm).bind symbol? = (children.find? isForm).bind symbol? := by
      rw [List.find?_map, isForm_comp_face]
      cases children.find? isForm with
      | none => rfl
      | some m => exact symbol?_face m
    cases kind with
    | bracket b =>
      cases b with
      | list => exact hfind
      | _ => rfl
    | _ => rfl
  | _ => rfl

theorem isBindingForm_skin (config : Config) (n : Node ι) : n.skin.isBindingForm config = n.isBindingForm config := by
  cases n with
  | composite label kind children =>
    have hforms : (composite () kind (children.map face)).forms = (composite label kind children).forms.map face := by
      unfold forms Node.children
      rw [List.filter_map, isForm_comp_face]
    rw [skin, isBindingForm.eq_def, isBindingForm.eq_def, hforms]
    -- the head and what follows it are looked at from outside only
    cases kind with
    | bracket b =>
      cases b with
      | list =>
        match (composite label (.bracket .list) children).forms with
        | [] => rfl
        | [_] => rfl
        | head :: .composite _ (.bracket bracket) _ :: _ =>
          cases bracket with
          | vector => exact congrArg (Option.any config.isBindingForm) (symbol?_face head)
          | _ => rfl
        | _ :: .composite _ .root _ :: _ => rfl
        | _ :: .composite _ (.mark _) _ :: _ => rfl
        | _ :: .atom _ _ :: _ => rfl
        | _ :: .trivia _ _ :: _ => rfl
      | _ => rfl
    | _ => rfl
  | _ => rfl

theorem childrenText_plain (closed : Bool) (ns : List (Node ι)) : childrenText closed (ns.map plain) = childrenText closed ns :=
  childrenText_map _ (fun n _ => text_map _ n) closed

end Node

namespace Frame

/-- The two frames are of composites of one kind with the same siblings at the same place. -/
structure Agrees (g f : Frame) : Prop where
  kind : g.kind = f.kind
  before : g.before.map plain = f.before.map plain
  after : g.after.map plain = f.after.map plain
  face : g.focus.face = f.focus.face

variable {g f : Frame}

theorem Agrees.index (h : g.Agrees f) : g.index = f.index := by
  rw [Frame.index, Frame.index, ← formCount_map_plain, h.before, formCount_map_plain]

theorem Agrees.width (h : g.Agrees f) : g.width = f.width := by
  have hstarts : g.focus.startsWithNewline = f.focus.startsWithNewline := by
    rw [← startsWithNewline_face, h.face, startsWithNewline_face]
  rw [Frame.width, Frame.width, h.kind, hstarts, ← childrenText_plain, h.before, childrenText_plain]

theorem Agrees.skin (h : g.Agrees f) : g.parent.skin = f.parent.skin := by
  have hfaces : ∀ {ns ms : List Cell}, ns.map plain = ms.map plain → ns.map Node.face = ms.map Node.face := by
    intro ns ms heq
    have := congrArg (List.map Node.face) heq
    simpa [List.map_map, Function.comp_def] using this
  rw [parent, parent, Node.skin, Node.skin, List.map_append, List.map_append, List.map_cons, List.map_cons, h.kind, h.face,
    hfaces h.before, hfaces h.after]

end Frame

/-! ## Faces along the frames -/

namespace Cursor

variable {strict : Prop} {c c' : Cursor} {n m m' : Cell} {frames frames' outer : List Frame} {op : Operation}

/-- Each frame around a node has it, or what it was before, as its child: with another inside at most. -/
def FacedFrom (n : Cell) : List Frame → Prop
  | [] => True
  | f :: outer => f.focus.face = n.face ∧ FacedFrom f.parent outer

theorem FacedFrom.congr (hface : m.face = n.face) (h : FacedFrom n frames) : FacedFrom m frames := by
  cases frames with
  | nil => trivial
  | cons f outer => exact ⟨h.1.trans hface.symm, h.2⟩

theorem face_settle (f : Frame) (n : Cell) (fresh : Stamp) : (f.settle n fresh).1.parent.face = f.parent.face := by
  rw [Frame.settle]
  split_ifs <;> rfl

theorem Walk.faced (h : Walk c c') (hc : FacedFrom c.node c.frames) : FacedFrom c'.node c'.frames := by
  induction h with
  | refl => exact hc
  | enter _ _ ih => exact ⟨rfl, ih⟩
  | leave _ ih => exact ih.2.congr (face_settle _ _ _)
  | @settle n f outer fresh _ ih =>
    refine ⟨?_, ih.2.congr (face_settle _ _ _)⟩
    rw [Frame.settle]
    split_ifs
    · exact ih.1
    · rfl

theorem Recasts.faced (h : Recasts c c' outer m m') (hc : FacedFrom c.node c.frames) : FacedFrom m' outer := by
  cases h.holds with
  | node => exact hc.congr h.face
  | @around f _ hframes =>
    rw [hframes] at hc
    exact FacedFrom.congr (n := f.parent) h.face hc.2

theorem FacedFrom.loosens {fresh : Stamp} (hloosens : Frame.Loosens fresh frames frames') (h : FacedFrom n frames) :
    FacedFrom n frames' := by
  induction hloosens generalizing n with
  | refl => exact h
  | @here f _ _ => exact ⟨h.1, FacedFrom.congr (n := f.parent) rfl h.2⟩
  | outside _ ih => exact ⟨h.1, ih h.2⟩

theorem faced_run (hc : c.Steady) (hop : op.Fits strict c.fresh) (h : op.run c = .ok c') (hfaced : FacedFrom c.node c.frames) :
    FacedFrom c'.node c'.frames := by
  rcases op.run_cases hc hop h with hwalk | ⟨outer, m, m', hrecasts⟩ | ⟨hframes, -, -⟩ |
    ⟨g, outer, outer', m, fresh, hrecasts, hloosens, rfl⟩
  · exact hwalk.faced hfaced
  · exact hrecasts.rests.walk.faced (hrecasts.faced hfaced)
  · rw [hframes]
    trivial
  · exact ⟨rfl, (hrecasts.faced hfaced).loosens hloosens⟩

theorem Runs.faced (h : Runs strict c c') (hc : c.Steady) (hfaced : FacedFrom c.node c.frames) :
    FacedFrom c'.node c'.frames := by
  induction h with
  | refl => exact hfaced
  | step hrun op hop hstep ih => exact faced_run (hrun.steady hc) hop hstep ih

/-! ## The way down a path -/

theorem cutAtFirst?_append {before after : List Cell} (hbefore : ∀ k ∈ before, k.isForm = false) (hn : n.isForm = true) :
    cutAtFirst? (before ++ n :: after) = some ⟨before, n, after⟩ := by
  induction before with
  | nil => simp [cutAtFirst?, hn]
  | cons k before ih =>
    obtain ⟨hk, hbefore⟩ := List.forall_mem_cons.mp hbefore
    rw [List.cons_append, cutAtFirst?, hk, ih hbefore]
    rfl

theorem exists_first_form {ns : List Cell} {j : Nat} (h : formCount ns = j + 1) :
    ∃ before m after, ns = before ++ m :: after ∧ (∀ k ∈ before, k.isForm = false) ∧ m.isForm = true ∧
      formCount after = j := by
  cases hcut : cutAtFirst? ns with
  | none => rw [formCount_eq_zero (cutAtFirst?_eq_none hcut)] at h; cases h
  | some cut =>
    obtain ⟨⟨hwhole, hform⟩, hbefore⟩ := cutAtFirst?_eq_some hcut
    refine ⟨cut.before, cut.focus, cut.after, hwhole, hbefore, hform, ?_⟩
    rw [hwhole, formCount_append, formCount_eq_zero hbefore, formCount_cons_eq, if_pos hform] at h
    omega

theorem right_eq {label fresh : Stamp} {kind : Kind} {before between after : List Cell}
    (hbetween : ∀ k ∈ between, k.isForm = false) (hn : n.isForm = true) :
    right ⟨m, ⟨label, kind, before, m, between ++ n :: after⟩ :: outer, fresh⟩ =
      .ok ⟨n, ⟨label, kind, before ++ m :: between, n, after⟩ :: outer, fresh⟩ := by
  rw [right]
  simp only [cutAtFirst?_append hbetween hn, Frame.settle, Frame.inStep, beq_self_eq_true, if_true]
  rfl

theorem rightBy_eq {label fresh : Stamp} {kind : Kind} {before between after : List Cell} {j : Nat}
    (hcount : formCount between = j) (hn : n.isForm = true) :
    rightBy (j + 1) ⟨m, ⟨label, kind, before, m, between ++ n :: after⟩ :: outer, fresh⟩ =
      .ok ⟨n, ⟨label, kind, before ++ m :: between, n, after⟩ :: outer, fresh⟩ := by
  induction j generalizing between before m with
  | zero =>
    have hbetween : ∀ k ∈ between, k.isForm = false := by simpa [formCount, List.countP_eq_zero] using hcount
    rw [rightBy, right_eq hbetween hn]
    rfl
  | succ j ih =>
    obtain ⟨front, k, back, rfl, hfront, hk, hcount⟩ := exists_first_form hcount
    rw [rightBy, List.append_assoc, List.cons_append, right_eq hfront hk]
    show rightBy (j + 1) _ = _
    rw [ih hcount, List.append_assoc, List.cons_append]

theorem follow_singleton {label fresh : Stamp} {kind : Kind} {before after : List Cell} (hn : n.isForm = true) :
    follow ⟨.composite label kind (before ++ n :: after), outer, fresh⟩ [formCount before] =
      .ok ⟨n, ⟨label, kind, before, n, after⟩ :: outer, fresh⟩ := by
  cases hcount : formCount before with
  | zero =>
    have hbefore : ∀ k ∈ before, k.isForm = false := by simpa [formCount, List.countP_eq_zero] using hcount
    rw [follow, down]
    simp only [cutAtFirst?_append hbefore hn]
    rfl
  | succ j =>
    obtain ⟨front, k, back, rfl, hfront, hk, hcount⟩ := exists_first_form hcount
    rw [follow, down]
    simp only [List.append_assoc, List.cons_append, cutAtFirst?_append hfront hk]
    show (rightBy (j + 1) _ >>= fun next => follow next []) = _
    rw [toChild, rightBy_eq hcount hn]
    rfl

theorem follow_append (p q : List Nat) : c.follow (p ++ q) = (c.follow p >>= fun d => d.follow q) := by
  induction p generalizing c with
  | nil => rfl
  | cons k p ih =>
    rw [List.cons_append, follow, follow, bind_assoc]
    refine bind_congr fun first => ?_
    rw [bind_assoc]
    exact bind_congr fun next => ih

/-- Following the path of a cursor from the root of its tree, or of any tree like it. -/
theorem exists_follow {e : Cursor} (hn : frames ≠ [] → n.isForm = true) (hfaced : FacedFrom n frames)
    (he : e.node.plain = (wholeFrom n frames).plain) :
    ∃ m gs, e.follow (trail frames) = .ok ⟨m, gs ++ e.frames, e.fresh⟩ ∧ m.plain = n.plain ∧
      List.Forall₂ Frame.Agrees gs frames := by
  induction frames generalizing n with
  | nil => exact ⟨e.node, [], rfl, he, .nil⟩
  | cons f outer ih =>
    obtain ⟨m, gs, hfollow, hm, hgs⟩ := ih (n := f.fill n) (fun _ => rfl) (FacedFrom.congr (n := f.parent) rfl hfaced.2) he
    -- the composite found is the one of the frame, with the node as its child
    rw [f.plain_fill] at hm
    cases m with
    | composite label kind children =>
      rw [plain_composite] at hm
      obtain ⟨-, hkind, hchildren⟩ := Node.composite.inj hm
      obtain ⟨before, rest, rfl, hbefore, hrest⟩ := List.map_eq_append_iff.mp hchildren
      obtain ⟨k, after, rfl, hk, hafter⟩ := List.map_eq_cons_iff.mp hrest
      have hkform : k.isForm = true := by rw [← isForm_plain, hk, isForm_plain, hn (by simp)]
      have hindex : formCount before = f.index := by
        rw [← formCount_map_plain, hbefore, formCount_map_plain]
        rfl
      refine ⟨k, ⟨label, kind, before, k, after⟩ :: gs, ?_, hk, .cons ⟨hkind, hbefore, hafter, ?_⟩ hgs⟩
      · rw [trail, List.map_cons, List.reverse_cons, follow_append]
        show (e.follow (trail outer) >>= fun d => d.follow [f.index]) = _
        rw [hfollow, ← hindex]
        exact follow_singleton hkform
      · rw [← face_plain, hk, face_plain]
        exact hfaced.1.symm
    | _ => cases hm

/-! ## What a cursor tells about itself -/

/-- The second cursor is at the same place of the same tree, and tells the same about that place. -/
structure Retraces (c c' : Cursor) : Prop where
  node : c'.node.plain = c.node.plain
  tree : c'.tree.plain = c.tree.plain
  path : c'.path = c.path
  offset : c'.offset = c.offset
  steps : c'.pathSteps = c.pathSteps
  site : ∀ config, bindingSite config none c'.frames = bindingSite config none c.frames

theorem map_agrees {α : Type} {view : Frame → α} (hview : ∀ {g f : Frame}, g.Agrees f → view g = view f)
    (h : List.Forall₂ Frame.Agrees frames' frames) : frames'.map view = frames.map view := by
  induction h with
  | nil => rfl
  | cons hframe _ ih => rw [List.map_cons, List.map_cons, hview hframe, ih]

theorem bindingSite_agrees (config : Config) (inner : Option Nat) (h : List.Forall₂ Frame.Agrees frames' frames) :
    bindingSite config inner frames' = bindingSite config inner frames := by
  induction h generalizing inner with
  | nil => rfl
  | @cons g f _ _ hframe hrest ih =>
    have hform : g.parent.isBindingForm config = f.parent.isBindingForm config := by
      rw [← isBindingForm_skin, hframe.skin, isBindingForm_skin]
    cases hrest with
    | nil => rfl
    | cons hnext hrest =>
      unfold bindingSite
      simp only [hform, hframe.index, hrest.length_eq, ih]

theorem pathSteps_agrees (h : List.Forall₂ Frame.Agrees frames' frames) {fresh fresh' : Stamp} :
    pathSteps ⟨m, frames', fresh'⟩ = pathSteps ⟨n, frames, fresh⟩ := by
  have hsteps : frames'.map (fun f => (⟨f.index, f.kind.name, f.parent.headSymbol?⟩ : PathStep)) =
      frames.map (fun f => ⟨f.index, f.kind.name, f.parent.headSymbol?⟩) := by
    refine map_agrees (fun {g f} hframe => ?_) h
    rw [hframe.index, hframe.kind, ← headSymbol?_skin, hframe.skin, headSymbol?_skin]
  rw [pathSteps, pathSteps, List.map_reverse, List.map_reverse, hsteps]

/-- Going to the path that a cursor tells leads to where it is. -/
theorem Steady.retraces (hc : c.Steady) (hfaced : FacedFrom c.node c.frames) :
    ∃ c', c.goto c.path = .ok c' ∧ Retraces c c' := by
  obtain ⟨n, gs, hgoto, hnode, hagrees⟩ := exists_follow hc.form hfaced hc.stamps.plain_tree
  have hframes : gs ++ c.root.frames = gs := by rw [root, frames_rootFrom, List.append_nil]
  rw [hframes] at hgoto
  have hwalk : Walk c ⟨n, gs, c.root.fresh⟩ := Walk.refl.goto hgoto
  refine ⟨_, hgoto, hnode, ?_, ?_, ?_, pathSteps_agrees hagrees, fun config => bindingSite_agrees config none hagrees⟩
  · rw [(hwalk.steady hc.stamps).plain_tree, hwalk.plain_whole hc.stamps, hc.stamps.plain_tree]
  · exact congrArg List.reverse (map_agrees Frame.Agrees.index hagrees)
  · exact congrArg (List.foldr (· + ·) 0) (map_agrees Frame.Agrees.width hagrees)

theorem Retraces.location (h : Retraces c c') : c'.location = c.location := by
  have hsource : c'.source = c.source := by
    have htext := congrArg text h.tree
    rwa [plain, plain, text_map, text_map] at htext
  rw [Cursor.location, Cursor.location, h.offset, h.path, hsource]

end Cursor

end SexprEdit
