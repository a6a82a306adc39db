import SexprEdit.Proofs.Cursor.Recast
import SexprEdit.Proofs.Node.Structure

/-!
# Runs of operations

An operation is a move or an edit of a cursor. One that succeeds changes the tree at one place, and says where: moves
leave it as it is, insertions and removals change the children of one composite and nothing else, and replacing may
also put a blank further out (`Operation.Keeps`). What one operation keeps, a run of operations keeps (`Cursor.Runs`).
-/

namespace SexprEdit

open Node

/-- A move or an edit of a cursor. -/
inductive Operation where
  | move (direction : Direction)
  | goto (path : List Nat)
  | replace (form : Draft)
  | insertBefore (form : Draft)
  | insertAfter (form : Draft)
  | insertChild (form : Draft)
  | appendChild (form : Draft)
  | remove

/-- A draft that may be put in under a cursor: the stamps that it keeps are in use there. If `strict`, it is also a
built form that is no document. -/
structure Draft.Fits (strict : Prop) (fresh : Stamp) (d : Draft) : Prop where
  keeps : KeepsBelow fresh d
  built : strict → d.Built ∧ d.isRoot = false

/-- A form as a document: a document stays as it is, any other form becomes the only one of a document. -/
def Node.document (n : Tree) : Tree :=
  if n.isRoot then n else .root [n]

namespace Operation

def run (c : Cursor) : Operation → Except CursorError Cursor
  | move direction => direction.move c
  | goto path => c.goto path
  | replace form => c.replace form
  | insertBefore form => c.insertBefore form
  | insertAfter form => c.insertAfter form
  | insertChild form => c.insertChild form
  | appendChild form => c.appendChild form
  | remove => c.remove

def form? : Operation → Option Draft
  | replace form | insertBefore form | insertAfter form | insertChild form | appendChild form => some form
  | _ => none

/-- The form that is put in, if there is one, may be put in. -/
def Fits (strict : Prop) (fresh : Stamp) (op : Operation) : Prop :=
  ∀ d ∈ op.form?, d.Fits strict fresh

/-- What an operation at the end of a path, where the given node is, makes of a tree. -/
def Keeps (path : List Nat) (n t t' : Tree) : Operation → Prop
  | move _ | goto _ => t' = t
  | replace form => if path = [] then t' = form.plain.document
      else Edited Padding (fun m m' => m = n ∧ m' = form.plain) path t t'
  | insertBefore form => ∃ q k, path = q ++ [k] ∧ Edited (· = []) (Inserts k form.plain) q t t'
  | insertAfter form => ∃ q k, path = q ++ [k] ∧ Edited (· = []) (Inserts (k + 1) form.plain) q t t'
  | insertChild form => Edited (· = []) (Inserts 0 form.plain) path t t'
  | appendChild form => Edited (· = []) (fun m m' => Inserts (formCount m.children) form.plain m m') path t t'
  | remove => ∃ q k, path = q ++ [k] ∧ Edited (· = []) (Removes k n) q t t'

end Operation

/-! ## Edits inside frames -/

namespace Cursor

open SexprEdit.Frame (separator)

variable {c c' : Cursor} {d : Draft} {n m m' : Cell} {fresh later : Stamp} {frames frames' outer : List Frame}
  {pad : List Tree → Prop} {R : Tree → Tree → Prop} {q : List Nat}

theorem edited_fill (hpad : pad []) (h : Edited pad R q n.plain m.plain) (hn : n.isForm = true) (hm : m.isForm = true)
    (f : Frame) : Edited pad R (f.index :: q) (f.fill n).plain (f.fill m).plain := by
  have hinside := h.inside f.kind (f.before.map plain) (f.after.map plain)
    ((isForm_plain n).trans hn) ((isForm_plain m).trans hm) hpad hpad (absurd rfl)
  rwa [List.append_nil, List.nil_append, ← f.plain_fill, ← f.plain_fill, formCount_map_plain] at hinside

theorem edited_wholeFrom (hpad : pad []) (h : Edited pad R q n.plain m.plain) (hn : frames ≠ [] → n.isForm = true)
    (hm : frames ≠ [] → m.isForm = true) :
    Edited pad R (trail frames ++ q) (wholeFrom n frames).plain (wholeFrom m frames).plain := by
  induction frames generalizing n m q with
  | nil => exact h
  | cons f outer ih =>
    have hfill := edited_fill hpad h (hn (by simp)) (hm (by simp)) f
    rw [trail, List.map_cons, List.reverse_cons, List.append_assoc]
    exact ih hfill (fun _ => rfl) (fun _ => rfl)

theorem padding_nil : Padding [] :=
  ⟨Nat.zero_le 1, by simp⟩

theorem padding_of_eq_nil (ns : List Tree) (h : ns = []) : Padding ns :=
  h ▸ padding_nil

theorem padding_blankIf (needed : Bool) (stamp : Stamp) : Padding ((blankIf needed stamp).map plain) := by
  cases needed with
  | false => exact padding_nil
  | true =>
    refine ⟨Nat.le_refl 1, fun b hb => ?_⟩
    obtain rfl := List.mem_singleton.mp hb
    rfl

theorem padding_separator (kind : Kind) (before : List Cell) (stamp : Stamp) :
    Padding [(separator kind before stamp).plain] :=
  ⟨Nat.le_refl 1, by simpa using (separator_spec kind before stamp).1⟩

theorem edited_loosens (hloosens : Frame.Loosens fresh frames frames') (h : Edited Padding R q n.plain m.plain)
    (hn : n.isForm = true) (hm : m.isForm = true) :
    Edited Padding R (trail frames ++ q) (wholeFrom n frames).plain (wholeFrom m frames').plain := by
  induction hloosens generalizing n m q with
  | refl => exact edited_wholeFrom padding_nil h (fun _ => hn) (fun _ => hm)
  | @here f outer hend =>
    have hinside := h.inside f.kind (f.before.map plain) (f.after.map plain)
      ((isForm_plain n).trans hn) ((isForm_plain m).trans hm) padding_nil (padding_blankIf true (fresh + 1))
      (fun _ => by simpa using hend)
    have hfill : Edited Padding R (f.index :: q) (f.fill n).plain ((f.spaceAfter fresh).fill m).plain := by
      rw [formCount_map_plain, List.append_nil, ← f.plain_fill] at hinside
      simpa [Frame.plain_fill, Frame.spaceAfter, Frame.index, blankIf] using hinside
    rw [trail, List.map_cons, List.reverse_cons, List.append_assoc]
    exact edited_wholeFrom padding_nil hfill (fun _ => rfl) (fun _ => rfl)
  | @outside f outer outer' _ ih =>
    rw [trail, List.map_cons, List.reverse_cons, List.append_assoc]
    exact ih (edited_fill padding_nil h hn hm f) rfl rfl

theorem isForm_of_face (h : m'.face = m.face) (hm : m'.isForm = true) : m.isForm = true := by
  cases m with
  | trivia label t => cases m' <;> simp [face, isForm] at h hm
  | _ => rfl

theorem Recasts.edited (h : Recasts c c' outer m m') (hR : R m.plain m'.plain) :
    Edited (· = []) R (trail outer) c.whole.plain c'.whole.plain := by
  have hedited : Edited (· = []) R (trail outer ++ []) (wholeFrom m outer).plain (wholeFrom m' outer).plain :=
    edited_wholeFrom rfl (.here hR) (fun _ => isForm_of_face h.face h.form) (fun _ => h.form)
  rwa [List.append_nil, ← h.holds.whole, ← h.rests.whole] at hedited

/-! ## What each edit changes -/

theorem plain_of_stamp (hd : KeepsBelow c.fresh d) (hn : Node.stamp c.fresh d = (n, later)) : n.plain = d.plain := by
  have hplain := (stamp_spec d c.fresh hd).plain
  rwa [hn] at hplain

theorem insertBefore_keeps (hc : c.Steady) (hd : KeepsBelow c.fresh d) (h : c.insertBefore d = .ok c') :
    ∃ q k, c.path = q ++ [k] ∧ c'.path = q ++ [k + 1] ∧
      Edited (· = []) (Inserts k d.plain) q c.whole.plain c'.whole.plain := by
  obtain ⟨-, f, outer, hframes, hvariadic, hpath, hrecasts⟩ := insertBefore_recasts hc hd rfl h
  refine ⟨trail outer, f.index, path_of_frames hframes, hpath, hrecasts.edited ?_⟩
  refine ⟨f.kind, f.before.map plain, _, _, (c.node :: f.after).map plain, hvariadic, formCount_map_plain _,
    padding_blankIf (needsGap f.kind f.before.getLast? (some (Node.stamp c.fresh d).1)) ((Node.stamp c.fresh d).2 + 1),
    padding_separator f.kind f.before ((Node.stamp c.fresh d).2 + 2), f.plain_fill _, ?_⟩
  rw [← plain_of_stamp hd rfl]
  simp

theorem insertAfter_keeps (hc : c.Steady) (hd : KeepsBelow c.fresh d) (h : c.insertAfter d = .ok c') :
    ∃ q k, c.path = q ++ [k] ∧ c'.path = q ++ [k] ∧
      Edited (· = []) (Inserts (k + 1) d.plain) q c.whole.plain c'.whole.plain := by
  obtain ⟨-, f, outer, hframes, hvariadic, hpath, hrecasts⟩ := insertAfter_recasts hc hd rfl h
  have hform : c.node.isForm = true := hc.form (by simp [hframes])
  refine ⟨trail outer, f.index, path_of_frames hframes, hpath, hrecasts.edited ?_⟩
  refine ⟨f.kind, (f.before ++ [c.node]).map plain, _, _, f.after.map plain, hvariadic, ?_,
    padding_separator f.kind f.before ((Node.stamp c.fresh d).2 + 2),
    padding_blankIf (needsGap f.kind (some (Node.stamp c.fresh d).1) f.after.head?) ((Node.stamp c.fresh d).2 + 1), ?_, ?_⟩
  · rw [formCount_map_plain, formCount_append, formCount_cons_eq, if_pos hform]
    rfl
  · rw [f.plain_fill]
    simp
  · rw [← plain_of_stamp hd rfl]
    simp

theorem insertChild_keeps (hc : c.Steady) (hd : KeepsBelow c.fresh d) (h : c.insertChild d = .ok c') :
    c'.path = c.path ∧ Edited (· = []) (Inserts 0 d.plain) c.path c.whole.plain c'.whole.plain := by
  obtain ⟨-, label, kind, old, new, hnode, hvariadic, hframes, hrecasts, hnew⟩ := insertChild_recasts hc hd rfl h
  refine ⟨by rw [path, hframes]; rfl, hrecasts.edited ?_⟩
  rw [hnode, ← plain_of_stamp hd rfl]
  rcases hnew with ⟨before, focus, after, rfl, htrivia, rfl⟩ | ⟨-, rfl⟩
  · refine ⟨kind, before.map plain, [], _, (focus :: after).map plain, hvariadic, ?_, padding_nil,
      padding_separator kind before ((Node.stamp c.fresh d).2 + 1), by simp, by simp⟩
    rw [formCount_map_plain, formCount_eq_zero htrivia]
  · exact ⟨kind, [], [], [], old.map plain, hvariadic, rfl, padding_nil, padding_nil, by simp, by simp⟩

theorem appendChild_keeps (hc : c.Steady) (hd : KeepsBelow c.fresh d) (h : c.appendChild d = .ok c') :
    c'.path = c.path ∧
      Edited (· = []) (fun m m' => Inserts (formCount m.children) d.plain m m') c.path c.whole.plain c'.whole.plain := by
  obtain ⟨-, label, kind, old, new, hnode, hvariadic, hframes, hrecasts, hnew⟩ := appendChild_recasts hc hd rfl h
  refine ⟨by rw [path, hframes]; rfl, hrecasts.edited ?_⟩
  rw [hnode, ← plain_of_stamp hd rfl]
  rcases hnew with ⟨before, focus, after, rfl, htrivia, -, rfl⟩ | ⟨htrivia, rfl⟩
  · refine ⟨kind, (before ++ [focus]).map plain, _, [], after.map plain, hvariadic, ?_,
      padding_separator kind before ((Node.stamp c.fresh d).2 + 1), padding_nil, by simp, by simp⟩
    -- the forms in front are all the forms that there are
    rw [plain_composite, Node.children, formCount_map_plain, formCount_map_plain, formCount_append, formCount_append,
      formCount_cons_eq, formCount_cons_eq, formCount_eq_zero htrivia]
    rfl
  · refine ⟨kind, [], [], [], old.map plain, hvariadic, ?_, padding_nil, padding_nil, by simp, by simp⟩
    rw [plain_composite, Node.children, formCount_map_plain, formCount_eq_zero htrivia]
    rfl

theorem remove_keeps (hc : c.Steady) (h : c.remove = .ok c') :
    ∃ f outer, c.frames = f :: outer ∧
      c'.path = (if 0 < formCount f.after then trail outer ++ [f.index]
        else if 0 < f.index then trail outer ++ [f.index - 1] else trail outer) ∧
      Edited (· = []) (Removes f.index c.node.plain) (trail outer) c.whole.plain c'.whole.plain := by
  obtain ⟨f, outer, before, after, hframes, hvariadic, htrims, hpath, hrecasts⟩ := remove_recasts hc h
  obtain ⟨⟨left, hleft, hleftBlank⟩, right, hright, hrightBlank⟩ := htrims
  refine ⟨f, outer, hframes, hpath, hrecasts.edited ?_⟩
  refine ⟨f.kind, before.map plain, left.map plain, right.map plain, after.map plain, _, hvariadic, ?_, ?_,
    padding_blankIf (needsGap f.kind before.getLast? after.head?) (c.fresh + 1), ?_, ?_⟩
  · rw [formCount_map_plain, Frame.index, hleft, formCount_append,
      formCount_eq_zero fun k hk => isForm_of_isWhitespace (hleftBlank k hk), Nat.add_zero]
  · rw [← List.map_append, List.forall_mem_map]
    intro k hk
    rw [isWhitespace_plain]
    rcases List.mem_append.mp hk with hk | hk
    · exact hleftBlank k hk
    · exact hrightBlank k hk
  · rw [f.plain_fill, hleft, hright]
    simp
  · simp

theorem replace_keeps (hc : c.Steady) (hd : KeepsBelow c.fresh d) (h : c.replace d = .ok c') :
    c'.path = c.path ∧
      (if c.path = [] then c'.whole.plain = d.plain.document
        else Edited Padding (fun m m' => m = c.node.plain ∧ m' = d.plain) c.path c.whole.plain c'.whole.plain) := by
  have hplain := plain_of_stamp hd rfl
  obtain ⟨hform, ⟨hframes, hroot, rfl⟩ | ⟨hframes, hroot, rfl⟩ | ⟨f, outer, outer', hframes, rfl, hloosens, -⟩⟩ :=
    replace_recasts hc hd rfl h
  · have hpath : c.path = [] := by rw [path, hframes]; rfl
    refine ⟨hpath.symm, ?_⟩
    rw [if_pos hpath, ← hplain, Node.document, isRoot_plain, if_pos hroot]
    rfl
  · have hpath : c.path = [] := by rw [path, hframes]; rfl
    refine ⟨hpath.symm, ?_⟩
    rw [if_pos hpath, ← hplain, Node.document, isRoot_plain, hroot]
    simp [whole, wholeFrom, Tree.root]
  · have hne : c.path ≠ [] := by rw [path_of_frames hframes]; simp
    have hnform : (Node.stamp c.fresh d).1.isForm = true := by rw [← isForm_plain, hplain, isForm_plain, hform]
    have hnode : c.node.isForm = true := hc.form (by simp [hframes])
    have hindex : (f.replaceFocus (Node.stamp c.fresh d).1 (Node.stamp c.fresh d).2).index = f.index := by
      rw [Frame.index, Frame.replaceFocus, formCount_append, formCount_blankIf]
      rfl
    refine ⟨by rw [path_cons, hindex, trail_loosens hloosens, path_of_frames hframes], ?_⟩
    rw [if_neg hne, path_of_frames hframes, whole, hframes]
    refine edited_loosens (n := f.fill c.node)
      (m := (f.replaceFocus (Node.stamp c.fresh d).1 (Node.stamp c.fresh d).2).fill (Node.stamp c.fresh d).1) hloosens ?_
      rfl rfl
    have hend : (blankIf (needsGap f.kind (some (Node.stamp c.fresh d).1) f.after.head?)
        ((Node.stamp c.fresh d).2 + 2)).map plain ≠ [] → f.after.map plain ≠ [] ∨ f.kind.closer ≠ [] := by
      -- a blank is put at the end only in front of a closing delimiter
      intro hblank
      by_contra hend
      obtain ⟨hafter, hcloser⟩ := not_or.mp hend
      have hafter : f.after = [] := by simpa using hafter
      refine hblank ?_
      rw [hafter, List.head?_nil, List.map_eq_nil_iff]
      exact blankIf_eq_nil (not_not.mp hcloser) _ _
    have hhere : Edited Padding (fun m m' => m = c.node.plain ∧ m' = d.plain) [] c.node.plain d.plain := .here ⟨rfl, rfl⟩
    have hinside := hhere.inside f.kind (f.before.map plain) (f.after.map plain) ((isForm_plain _).trans hnode)
      ((isForm_plain _).trans hform)
      (padding_blankIf (needsGap f.kind f.before.getLast? (some (Node.stamp c.fresh d).1)) ((Node.stamp c.fresh d).2 + 1))
      (padding_blankIf _ _) hend
    rw [formCount_map_plain, ← f.plain_fill] at hinside
    simpa [Frame.plain_fill, Frame.replaceFocus, Frame.index, hplain] using hinside

end Cursor

/-! ## Runs -/

namespace Operation

open Cursor

variable {strict : Prop} {c c' : Cursor} {op : Operation}

/-- Every operation is a walk, writes one composite anew, or starts a new document. That has a new stamp, unless it is
itself what was put in. -/
theorem run_cases (hc : c.Steady) (hop : op.Fits strict c.fresh) (h : op.run c = .ok c') :
    Walk c c' ∨ (∃ outer m m', Recasts c c' outer m m') ∨
      (c'.frames = [] ∧ c'.node.Below c'.fresh ∧ c.fresh ≤ c'.fresh ∧
        ((∀ d ∈ op.form?, d.isRoot = false) → c.fresh ≤ c'.node.label)) ∨
        ∃ g outer outer' m fresh, Recasts c ⟨g.focus, g :: outer, fresh⟩ outer m g.parent ∧
          Frame.Loosens fresh outer outer' ∧ c' = ⟨g.focus, g :: outer', fresh + 2⟩ := by
  cases op with
  | move direction => exact .inl (Direction.walk h)
  | goto path => exact .inl (Walk.refl.goto h)
  | replace d =>
    obtain ⟨hplain, hle, hbelow⟩ := stamp_spec d c.fresh (hop d rfl).keeps
    obtain ⟨-, ⟨-, hroot, rfl⟩ | ⟨-, -, rfl⟩ | ⟨f, outer, outer', -, rfl, hloosens, hrecasts⟩⟩ :=
      replace_recasts hc (hop d rfl).keeps rfl h
    · refine .inr (.inr (.inl ⟨rfl, hbelow, hle, fun hform => ?_⟩))
      rw [← isRoot_plain, hplain, isRoot_plain, hform d rfl] at hroot
      cases hroot
    · refine .inr (.inr (.inl ⟨rfl, below_iff.mpr ⟨Stamp.lt_add _ Nat.one_pos, ?_⟩, Stamp.le_add_of_le hle 1,
        fun _ => hle⟩))
      exact List.forall_mem_singleton.mpr (hbelow.mono (Stamp.le_add _ 1))
    · exact .inr (.inr (.inr ⟨f.replaceFocus _ _, outer, outer', _, _, hrecasts, hloosens, rfl⟩))
  | insertBefore d =>
    obtain ⟨-, f, outer, -, -, -, hrecasts⟩ := insertBefore_recasts hc (hop d rfl).keeps rfl h
    exact .inr (.inl ⟨_, _, _, hrecasts⟩)
  | insertAfter d =>
    obtain ⟨-, f, outer, -, -, -, hrecasts⟩ := insertAfter_recasts hc (hop d rfl).keeps rfl h
    exact .inr (.inl ⟨_, _, _, hrecasts⟩)
  | insertChild d =>
    obtain ⟨-, label, kind, old, new, -, -, -, hrecasts, -⟩ := insertChild_recasts hc (hop d rfl).keeps rfl h
    exact .inr (.inl ⟨_, _, _, hrecasts⟩)
  | appendChild d =>
    obtain ⟨-, label, kind, old, new, -, -, -, hrecasts, -⟩ := appendChild_recasts hc (hop d rfl).keeps rfl h
    exact .inr (.inl ⟨_, _, _, hrecasts⟩)
  | remove =>
    obtain ⟨f, outer, before, after, -, -, -, -, hrecasts⟩ := remove_recasts hc h
    exact .inr (.inl ⟨_, _, _, hrecasts⟩)

theorem steady_run (hc : c.Steady) (hop : op.Fits strict c.fresh) (h : op.run c = .ok c') : c'.Steady := by
  rcases run_cases hc hop h with hwalk | ⟨outer, m, m', hrecasts⟩ | ⟨hframes, hbelow, -⟩ |
    ⟨g, outer, outer', m, fresh, hrecasts, hloosens, rfl⟩
  · exact hc.walk hwalk
  · exact hrecasts.steady hc
  · refine ⟨?_, fun hne => absurd hframes hne⟩
    rw [hframes]
    exact hbelow
  · refine ⟨SteadyFrom.enter ((hrecasts.stamps hc).loosens hloosens (le_refl fresh)), fun _ => ?_⟩
    exact hrecasts.isForm

theorem fresh_le_run (hc : c.Steady) (hop : op.Fits strict c.fresh) (h : op.run c = .ok c') : c.fresh ≤ c'.fresh := by
  rcases run_cases hc hop h with hwalk | ⟨outer, m, m', hrecasts⟩ | ⟨-, -, hle, -⟩ |
    ⟨g, outer, outer', m, fresh, hrecasts, -, rfl⟩
  · exact hwalk.fresh_le
  · exact hrecasts.fresh_le
  · exact hle
  · exact Stamp.le_add_of_le hrecasts.fresh_le 2

theorem keeps_run (hc : c.Steady) (hop : op.Fits strict c.fresh) (h : op.run c = .ok c') :
    op.Keeps c.path c.node.plain c.whole.plain c'.whole.plain := by
  cases op with
  | move direction => exact (Direction.walk h).plain_whole hc.stamps
  | goto path => exact (Walk.refl.goto h).plain_whole hc.stamps
  | replace d => exact (replace_keeps hc (hop d rfl).keeps h).2
  | insertBefore d =>
    obtain ⟨q, k, hpath, -, hedited⟩ := insertBefore_keeps hc (hop d rfl).keeps h
    exact ⟨q, k, hpath, hedited⟩
  | insertAfter d =>
    obtain ⟨q, k, hpath, -, hedited⟩ := insertAfter_keeps hc (hop d rfl).keeps h
    exact ⟨q, k, hpath, hedited⟩
  | insertChild d => exact (insertChild_keeps hc (hop d rfl).keeps h).2
  | appendChild d => exact (appendChild_keeps hc (hop d rfl).keeps h).2
  | remove =>
    obtain ⟨f, outer, hframes, -, hedited⟩ := remove_keeps hc h
    exact ⟨trail outer, f.index, path_of_frames hframes, hedited⟩

end Operation

namespace Cursor

/-- The second cursor is reached from the first by operations. If `strict`, all forms that they put in are built and no
documents. -/
inductive Runs (strict : Prop) (c : Cursor) : Cursor → Prop where
  | refl : Runs strict c c
  | step {d e : Cursor} (h : Runs strict c d) (op : Operation) (hop : op.Fits strict d.fresh) (hrun : op.run d = .ok e) :
      Runs strict c e

variable {strict : Prop} {c d e : Cursor}

theorem Runs.trans (hcd : Runs strict c d) (hde : Runs strict d e) : Runs strict c e := by
  induction hde with
  | refl => exact hcd
  | step _ op hop hrun ih => exact ih.step op hop hrun

theorem Runs.steady (h : Runs strict c d) (hc : c.Steady) : d.Steady := by
  induction h with
  | refl => exact hc
  | step _ op hop hrun ih => exact op.steady_run ih hop hrun

theorem Runs.fresh_le (h : Runs strict c d) (hc : c.Steady) : c.fresh ≤ d.fresh := by
  induction h with
  | refl => exact le_refl _
  | step hrun op hop hstep ih => exact ih.trans (op.fresh_le_run (hrun.steady hc) hop hstep)

/-- A run that never puts in a document. -/
inductive Edits (strict : Prop) (c : Cursor) : Cursor → Prop where
  | refl : Edits strict c c
  | step {d e : Cursor} (h : Edits strict c d) (op : Operation) (hop : op.Fits strict d.fresh)
      (hform : ∀ form ∈ op.form?, form.isRoot = false) (hrun : op.run d = .ok e) : Edits strict c e

theorem Edits.trans (hcd : Edits strict c d) (hde : Edits strict d e) : Edits strict c e := by
  induction hde with
  | refl => exact hcd
  | step _ op hop hform hrun ih => exact ih.step op hop hform hrun

theorem Edits.runs (h : Edits strict c d) : Runs strict c d := by
  induction h with
  | refl => exact .refl
  | step _ op hop _ hrun ih => exact ih.step op hop hrun

end Cursor

end SexprEdit
