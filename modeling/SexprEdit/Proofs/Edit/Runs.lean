import SexprEdit.Proofs.Cursor.Coherence
import SexprEdit.Proofs.Edit.ReadBack

/-!
# Mutations as runs

Every mutation is a run of moves and edits of the cursor (`Mutation.runs`): renaming and extraction are made of them, and
whatever they and threading put in is made of nodes that are there, of new atoms and of blanks. So what all runs keep
holds after any mutations, whatever the binding forms are: a document stays built and its comments are ended, and the
path that a cursor reports leads back to where it is.
-/

namespace SexprEdit

open Node

variable {strict : Prop} {fresh later : Stamp}

/-! ## Drafts -/

namespace Draft

theorem Fits.mono {d : Draft} (h : d.Fits strict fresh) (hle : fresh ≤ later) : d.Fits strict later :=
  ⟨h.keeps.mono hle, h.built⟩

theorem fits_kept_iff {n : Cell} :
    Fits strict fresh n.kept ↔ n.Below fresh ∧ (strict → n.Built ∧ n.isRoot = false) := by
  have hkeeps : KeepsBelow fresh n.kept ↔ n.Below fresh := every_map _ (fun n => by cases n <;> rfl) n
  have hbuilt : n.kept.Built ↔ n.Built := built_map some n
  have hroot : n.kept.isRoot = n.isRoot := isRoot_map some n
  rw [← hkeeps, ← hbuilt, ← hroot]
  exact ⟨fun h => ⟨h.keeps, h.built⟩, fun h => ⟨h.1, h.2⟩⟩

theorem fits_child {n m : Cell} (hbelow : n.Below fresh) (hbuilt : strict → n.Built) (hm : m ∈ n.children) :
    Fits strict fresh m.kept := by
  refine fits_kept_iff.mpr ⟨(below_iff.mp hbelow).2 m hm, fun hstrict => ?_⟩
  cases n with
  | composite label kind children => exact (built_composite_iff.mp (hbuilt hstrict)).1 m hm
  | _ => simp [children] at hm

theorem Kept.fits {care : Care} {d : Draft} (h : d.Kept care fresh) : d.Fits strict fresh :=
  ⟨h.ready.keeps, fun _ => ⟨h.ready.made.grammatical.built, h.ready.root⟩⟩

theorem fits_atom (a : Atom) : Fits strict fresh (.atom none a) :=
  ⟨rfl, fun _ => ⟨rfl, rfl⟩⟩

theorem fits_trivia (t : Trivia) : Fits strict fresh (.trivia none t) :=
  ⟨rfl, fun _ => ⟨rfl, rfl⟩⟩

theorem fits_blankIf (needed : Bool) : ∀ d ∈ blankIf needed none, Fits strict fresh d := by
  cases needed with
  | false => simp [blankIf]
  | true => exact List.forall_mem_singleton.mpr (fits_trivia _)

theorem fits_bracket (b : Bracket) {ds : List Draft} (h : ∀ d ∈ ds, Fits strict fresh d) :
    Fits strict fresh (.composite none (.bracket b) ds) := by
  refine ⟨keepsBelow_iff.mpr ⟨by simp [label], fun d hd => (h d hd).keeps⟩, fun hstrict => ⟨?_, rfl⟩⟩
  exact (built_variadic_iff (by simp)).mpr fun d hd => (h d hd).built hstrict

theorem fits_spaced (b : Bracket) {ds : List Draft} (h : ∀ d ∈ ds, Fits strict fresh d) :
    Fits strict fresh (spaced b ds) := by
  refine fits_bracket b fun d hd => ?_
  rcases mem_intersperse hd with rfl | hd
  · exact fits_trivia _
  · exact h d hd

variable {ns : List Cell} {name : Text} {value : Cell}

theorem fits_bindingSeparator (h : ∀ n ∈ ns, Fits strict fresh n.kept) : Fits strict fresh (bindingSeparator ns) := by
  rcases bindingSeparator_cases ns with heq | ⟨n, hn, -, heq⟩
  · rw [heq]
    exact fits_trivia _
  · rw [heq]
    exact h n hn

theorem fits_appendBinding (h : ∀ n ∈ ns, Fits strict fresh n.kept) (hvalue : Fits strict fresh value.kept) :
    Fits strict fresh (appendBinding ns name value) := by
  have hsep := fits_bindingSeparator h
  refine fits_bracket .vector ?_
  cases hcut : cutAtLast? ns with
  | none =>
    simp only [List.forall_mem_append, List.forall_mem_cons, List.forall_mem_map]
    exact ⟨⟨fits_atom _, fits_trivia _, hvalue, by simp⟩, h⟩
  | some cut =>
    obtain ⟨⟨hwhole, -⟩, -⟩ := cutAtLast?_eq_some hcut
    have hparts := h
    rw [hwhole] at hparts
    simp only [List.forall_mem_append, List.forall_mem_cons, List.forall_mem_map] at hparts ⊢
    obtain ⟨hbefore, hfocus, hafter⟩ := hparts
    exact ⟨⟨hbefore, hfocus, hsep, fits_atom _, fits_trivia _, hvalue, by simp⟩, hafter⟩

theorem fits_insertBinding {pair : Nat} (h : ∀ n ∈ ns, Fits strict fresh n.kept) (hvalue : Fits strict fresh value.kept) :
    Fits strict fresh (insertBinding ns pair name value) := by
  have hsep := fits_bindingSeparator h
  refine fits_bracket .vector ?_
  cases hcut : cutAtForm? (pair * 2) ns with
  | none =>
    simp only [List.forall_mem_append, List.forall_mem_cons, List.forall_mem_map]
    exact ⟨h, fits_atom _, fits_trivia _, hvalue, hsep, by simp⟩
  | some cut =>
    have hparts := h
    rw [(cutAtForm?_eq_some hcut).whole] at hparts
    simp only [List.forall_mem_append, List.forall_mem_cons, List.forall_mem_map] at hparts ⊢
    obtain ⟨hbefore, hfocus, hafter⟩ := hparts
    exact ⟨⟨hbefore, fits_atom _, fits_trivia _, hvalue, hsep, by simp⟩, hfocus, hafter⟩

theorem fits_wrapInBinding {head : Text} {body : Cell} (hvalue : Fits strict fresh value.kept)
    (hbody : Fits strict fresh body.kept) : Fits strict fresh (wrapInBinding head name value body) := by
  have hvector : Fits strict fresh (spaced .vector [symbol name, value.kept]) :=
    fits_spaced .vector (by simpa using ⟨fits_atom _, hvalue⟩)
  have hgap : Fits strict fresh (if body.text.contains '\n' then .newline none 2 else Draft.blank) := by
    split_ifs
    · exact fits_trivia _
    · exact fits_trivia _
  refine fits_bracket .list ?_
  simp only [List.forall_mem_cons]
  exact ⟨fits_atom _, fits_trivia _, hvector, hgap, hbody, by simp⟩

theorem fits_peel? {style : ThreadStyle} {n argument : Cell} {step : Draft}
    (h : ∀ m ∈ n.children, Fits strict fresh m.kept) (hpeel : peel? style n = some (step, argument)) :
    Fits strict fresh step ∧ Fits strict fresh argument.kept := by
  obtain ⟨label, before, after, front, rfl, hfront, hstep⟩ := peel?_eq_some hpeel
  refine ⟨?_, h argument (by simp [children])⟩
  have hrest : ∀ d ∈ front.map kept ++ (blankIf (needsGap (.bracket .list) front.getLast? after.head?) none ++
      after.map kept), Fits strict fresh d := by
    refine List.forall_mem_append.mpr ⟨?_, List.forall_mem_append.mpr ⟨fits_blankIf _, ?_⟩⟩
    · exact List.forall_mem_map.mpr fun k hk => h k (by simp [children, hfront.subset hk])
    · exact List.forall_mem_map.mpr fun k hk => h k (by simp [children, hk])
  rcases hstep with hmem | rfl
  · exact hrest step hmem
  · exact fits_bracket .list hrest

theorem fits_peelWithin (style : ThreadStyle) {n : Cell} (h : Fits strict fresh n.kept) (fuel : Nat) :
    (∀ d ∈ (peelWithin style fuel n).1, Fits strict fresh d) ∧ Fits strict fresh (peelWithin style fuel n).2.kept := by
  induction fuel generalizing n with
  | zero => exact ⟨by simp [peelWithin], h⟩
  | succ fuel ih =>
    rw [peelWithin]
    split
    · next step argument hpeel =>
      obtain ⟨hbelow, hbuilt⟩ := fits_kept_iff.mp h
      obtain ⟨hstep, hargument⟩ :=
        fits_peel? (fun m hm => fits_child hbelow (fun hstrict => (hbuilt hstrict).1) hm) hpeel
      obtain ⟨hsteps, hcore⟩ := ih hargument
      exact ⟨List.forall_mem_cons.mpr ⟨hstep, hsteps⟩, hcore⟩
    · exact ⟨by simp, h⟩

end Draft

/-! ## What runs keep of a document -/

namespace Cursor

variable {c c' : Cursor} {n : Cell} {frames : List Frame} {op : Operation}

/-- The stamps of a cursor are in order. If `strict`, its tree is a document and built. -/
structure InOrder (strict : Prop) (c : Cursor) : Prop where
  steady : c.Steady
  built : strict → c.whole.Built ∧ c.whole.isRoot = true

theorem built_of_wholeFrom (h : (wholeFrom n frames).Built) : n.Built ∧ (frames ≠ [] → n.isRoot = false) := by
  induction frames generalizing n with
  | nil => exact ⟨h, fun hne => absurd rfl hne⟩
  | cons f outer ih =>
    obtain ⟨hn, hroot⟩ := (built_composite_iff.mp (ih h).1).1 n (by simp)
    exact ⟨hn, fun _ => hroot⟩

theorem InOrder.node (h : c.InOrder strict) (hframes : c.frames ≠ []) : Draft.Fits strict c.fresh c.node.kept := by
  refine Draft.fits_kept_iff.mpr ⟨h.steady.stamps.below, fun hstrict => ?_⟩
  obtain ⟨hbuilt, hroot⟩ := built_of_wholeFrom (h.built hstrict).1
  exact ⟨hbuilt, hroot hframes⟩

theorem InOrder.children (h : c.InOrder strict) : ∀ n ∈ c.node.children, Draft.Fits strict c.fresh n.kept := fun _ hn =>
  Draft.fits_child h.steady.stamps.below (fun hstrict => (built_of_wholeFrom (h.built hstrict).1).1) hn

/-- One operation keeps a document built. -/
theorem built_run (hc : c.InOrder True) (hop : op.Fits True c.fresh) (h : op.run c = .ok c') :
    c'.whole.plain.Built ∧ c'.whole.plain.isRoot = true := by
  have hkeeps := op.keeps_run hc.steady hop h
  obtain ⟨hbuilt, hroot⟩ := hc.built trivial
  have hbuilt : c.whole.plain.Built := (built_map _ _).mpr hbuilt
  rw [← isRoot_plain] at hroot
  have hform : ∀ d ∈ op.form?, d.plain.Built ∧ d.plain.isRoot = false := by
    intro d hd
    obtain ⟨hdraft, hdraftRoot⟩ := (hop d hd).built trivial
    exact ⟨(built_map _ _).mpr hdraft, (isRoot_plain d).trans hdraftRoot⟩
  have hinsert : ∀ {d : Draft} {R : Tree → Tree → Prop} {q : List Nat}, d ∈ op.form? →
      (∀ n m, R n m → ∃ k, Inserts k d.plain n m) → Edited (· = []) R q c.whole.plain c'.whole.plain →
        c'.whole.plain.Built ∧ c'.whole.plain.isRoot = true := by
    intro d R q hd hR hedited
    refine (hedited.built padding_of_eq_nil (fun n m hnm => ?_) hbuilt).imp_right (·.trans hroot)
    obtain ⟨k, hinserts⟩ := hR n m hnm
    exact hinserts.built (hform d hd).1 (hform d hd).2
  cases op with
  | move direction => exact hkeeps ▸ ⟨hbuilt, hroot⟩
  | goto path => exact hkeeps ▸ ⟨hbuilt, hroot⟩
  | replace d =>
    obtain ⟨hd, hdRoot⟩ := hform d rfl
    rw [Operation.Keeps] at hkeeps
    split_ifs at hkeeps with hpath
    · rw [hkeeps, Node.document, hdRoot]
      exact ⟨(built_variadic_iff (by simp)).mpr (List.forall_mem_singleton.mpr ⟨hd, hdRoot⟩), rfl⟩
    · have hnode : c.node.plain.isRoot = false := by
        rw [isRoot_plain]
        refine (built_of_wholeFrom (hc.built trivial).1).2 fun hframes => hpath ?_
        rw [path, hframes]
        rfl
      refine (hkeeps.built (fun _ hpad => hpad) ?_ hbuilt).imp_right (·.trans hroot)
      rintro n m ⟨rfl, rfl⟩ -
      exact ⟨hd, hdRoot.trans hnode.symm⟩
  | insertBefore d =>
    obtain ⟨q, k, -, hedited⟩ := hkeeps
    exact hinsert rfl (fun n m hinserts => ⟨_, hinserts⟩) hedited
  | insertAfter d =>
    obtain ⟨q, k, -, hedited⟩ := hkeeps
    exact hinsert rfl (fun n m hinserts => ⟨_, hinserts⟩) hedited
  | insertChild d => exact hinsert rfl (fun n m hinserts => ⟨_, hinserts⟩) hkeeps
  | appendChild d => exact hinsert rfl (fun n m hinserts => ⟨_, hinserts⟩) hkeeps
  | remove =>
    obtain ⟨q, k, -, hedited⟩ := hkeeps
    exact (hedited.built padding_of_eq_nil (fun n m hremoves => hremoves.built) hbuilt).imp_right (·.trans hroot)

theorem Runs.inOrder (h : Runs strict c c') (hc : c.InOrder strict) : c'.InOrder strict := by
  refine ⟨h.steady hc.steady, fun hstrict => ?_⟩
  obtain rfl : strict = True := eq_true hstrict
  induction h with
  | refl => exact hc.built trivial
  | step hrun op hop hstep ih =>
    obtain ⟨hbuilt, hroot⟩ := built_run ⟨hrun.steady hc.steady, fun _ => ih⟩ hop hstep
    exact ⟨(built_map _ _).mp hbuilt, by rwa [isRoot_plain] at hroot⟩

theorem InOrder.tree (h : c.InOrder True) : c.tree.Built ∧ c.tree.isRoot = true := by
  obtain ⟨hbuilt, hroot⟩ := h.built trivial
  have htree := h.steady.stamps.plain_tree
  constructor
  · rw [← built_map (fun _ => ()), ← plain, htree, plain, built_map]
    exact hbuilt
  · rw [← isRoot_plain, htree, isRoot_plain, hroot]

theorem InOrder.isForm (h : c.InOrder True) : c.node.isForm = true := by
  by_cases hframes : c.frames = []
  · have hroot := (h.built trivial).2
    rw [whole, hframes] at hroot
    exact isForm_of_isRoot hroot
  · exact h.steady.form hframes

/-! ## Each mutation -/

theorem edits_move (direction : Direction) (h : direction.move c = .ok c') : Edits strict c c' :=
  Edits.refl.step (.move direction) (by rintro d ⟨⟩) (by rintro d ⟨⟩) h

theorem edits_goto {path : List Nat} (h : c.goto path = .ok c') : Edits strict c c' :=
  Edits.refl.step (.goto path) (by rintro d ⟨⟩) (by rintro d ⟨⟩) h

theorem edits_replace {d : Draft} (hd : d.Fits strict c.fresh) (hroot : d.isRoot = false) (h : c.replace d = .ok c') :
    Edits strict c c' :=
  Edits.refl.step (.replace d) (by rintro e ⟨⟩; exact hd) (by rintro e ⟨⟩; exact hroot) h

theorem edits_upBy {k : Nat} (h : upBy k c = .ok c') : Edits strict c c' := by
  induction k generalizing c with
  | zero =>
    obtain rfl := Except.ok.inj h
    exact .refl
  | succ k ih =>
    obtain ⟨next, hup, h⟩ := Except.exists_ok_of_bind h
    exact (edits_move .up hup).trans (ih h)

theorem edits_bindingsAt {depth : Nat} (h : c.bindingsAt depth = .ok c') : Edits strict c c' := by
  obtain ⟨form, hascend, h⟩ := Except.exists_ok_of_bind h
  obtain ⟨head, hdown, hright⟩ := Except.exists_ok_of_bind h
  exact ((edits_upBy hascend).trans (edits_move .down hdown)).trans (edits_move .right hright)

theorem edits_rename {m : Matcher} {replacement : Text} {count : Nat} (h : c.rename m replacement = .ok (c', count)) :
    Edits strict c c' := by
  have hP : RenameInvariant (Edits strict c) :=
    ⟨fun direction hruns hmove => hruns.trans (edits_move direction hmove), fun hruns hgoto => hruns.trans (edits_goto hgoto),
      fun hruns _ hreplace => hruns.trans (edits_replace (Draft.fits_atom _) rfl hreplace)⟩
  exact hP.rename .refl h

theorem edits_thread {style : ThreadStyle} (hc : c.InOrder strict) (h : c.thread style = .ok c') : Edits strict c c' := by
  rw [thread] at h
  split at h
  · next step argument hpeel =>
    split_ifs at h
    obtain ⟨hstep, hargument⟩ := Draft.fits_peel? hc.children hpeel
    obtain ⟨hsteps, hcore⟩ := Draft.fits_peelWithin style hargument argument.weight
    refine edits_replace (Draft.fits_spaced .list ?_) rfl (ok_of_ofCursor h)
    refine List.forall_mem_cons.mpr ⟨Draft.fits_atom _, List.forall_mem_cons.mpr ⟨hcore, fun d hd => ?_⟩⟩
    rcases List.mem_cons.mp (List.mem_reverse.mp hd) with rfl | hd
    · exact hstep
    · exact hsteps d hd
  · simp at h

theorem edits_editBindings {depth : Nat} {edit : List Cell → Draft} (h : c.editBindings depth edit = .ok c')
    (hdraft : ∀ vector, Edits strict c vector → Draft.Fits strict vector.fresh (edit vector.node.children))
    (hroot : ∀ ns, (edit ns).isRoot = false) :
    Edits strict c c' := by
  obtain ⟨vector, edited, hvector, hreplace, hup⟩ := editBindings_eq_ok h
  have hruns : Edits strict c vector := edits_bindingsAt hvector
  exact (hruns.trans (edits_replace (hdraft vector hruns) (hroot _) hreplace)).trans (edits_move .up hup)

theorem edits_extract {config : Config} {name : Text} (hc : c.InOrder strict) (h : c.extract config name = .ok c') :
    Edits strict c c' := by
  obtain ⟨hframes, -, site, referenced, -, hreplace, h⟩ := extract_eq_ok h
  have hname : Draft.Fits strict c.fresh (Draft.symbol name) := Draft.fits_atom _
  have hpath : referenced.path = c.path := (replace_keeps hc.steady hname.keeps hreplace).1
  have hreferenced : Edits strict c referenced := edits_replace hname rfl hreplace
  have hvalue : ∀ d, Edits strict referenced d → Draft.Fits strict d.fresh c.node.kept := fun d hruns =>
    (hc.node hframes).mono ((hreferenced.trans hruns).runs.fresh_le hc.steady)
  refine hreferenced.trans ?_
  have hc := hreferenced.runs.inOrder hc
  cases site with
  | body depth =>
    refine edits_editBindings h (fun vector hruns => ?_) fun _ => rfl
    exact Draft.fits_appendBinding (hruns.runs.inOrder hc).children (hvalue _ hruns)
  | value depth pair =>
    refine edits_editBindings h (fun vector hruns => ?_) fun _ => rfl
    exact Draft.fits_insertBinding (hruns.runs.inOrder hc).children (hvalue _ hruns)
  | top =>
    obtain ⟨top, hascend, h⟩ := h
    have hruns : Edits strict referenced top := edits_upBy hascend
    -- the form at the top is inside the document
    have htop : top.frames ≠ [] := by
      have hlength := length_frames_upBy hascend
      have hdepth : referenced.frames.length = c.frames.length := by simpa [path] using congrArg List.length hpath
      have hpos := List.length_pos_of_ne_nil hframes
      rw [depth] at hlength
      exact List.ne_nil_of_length_pos (by omega)
    refine hruns.trans (edits_replace (Draft.fits_wrapInBinding (hvalue _ hruns) ?_) rfl h)
    exact (hruns.runs.inOrder hc).node htop

end Cursor

open Cursor

theorem Mutation.replacements_moved {x : Except CursorError Cursor} {applied : Applied} (h : moved x = .ok applied) :
    applied.replacements = none := by
  cases x with
  | ok cursor =>
    obtain rfl := Except.ok.inj h
    rfl
  | error e => simp [moved] at h

/-- What a mutation does: one operation, with a form that was read from a fragment, or one of the larger edits. Only
renaming counts replacements. -/
theorem Mutation.apply_eq_ok {config : Config} {c : Cursor} {applied : Applied} {m : Mutation}
    (h : m.apply config c = .ok applied) :
    (applied.replacements = none ∧ ∃ op : Operation, op.run c = .ok applied.cursor ∧
        ∀ d ∈ op.form?, ∃ fragment form, Tree.readFragment fragment = .ok form ∧ d = form.draft) ∨
      (∃ matcher replacement count, c.rename matcher replacement = .ok (applied.cursor, count) ∧
        applied.replacements = some count) ∨
      (applied.replacements = none ∧
        ((∃ name, c.extract config name = .ok applied.cursor) ∨ ∃ style, c.thread style = .ok applied.cursor)) := by
  cases m with
  | navigate direction => exact .inl ⟨replacements_moved h, .move direction, ok_of_moved h, by rintro d ⟨⟩⟩
  | goto path => exact .inl ⟨replacements_moved h, .goto path, ok_of_moved h, by rintro d ⟨⟩⟩
  | remove => exact .inl ⟨replacements_moved h, .remove, ok_of_moved h, by rintro d ⟨⟩⟩
  | replace fragment =>
    obtain ⟨form, hread, hedit⟩ := Except.exists_ok_of_bind h
    exact .inl ⟨replacements_moved hedit, .replace form.draft, ok_of_moved hedit, by rintro d ⟨⟩; exact ⟨_, _, hread, rfl⟩⟩
  | insertBefore fragment =>
    obtain ⟨form, hread, hedit⟩ := Except.exists_ok_of_bind h
    exact .inl ⟨replacements_moved hedit, .insertBefore form.draft, ok_of_moved hedit,
      by rintro d ⟨⟩; exact ⟨_, _, hread, rfl⟩⟩
  | insertAfter fragment =>
    obtain ⟨form, hread, hedit⟩ := Except.exists_ok_of_bind h
    exact .inl ⟨replacements_moved hedit, .insertAfter form.draft, ok_of_moved hedit,
      by rintro d ⟨⟩; exact ⟨_, _, hread, rfl⟩⟩
  | insertChild fragment =>
    obtain ⟨form, hread, hedit⟩ := Except.exists_ok_of_bind h
    exact .inl ⟨replacements_moved hedit, .insertChild form.draft, ok_of_moved hedit,
      by rintro d ⟨⟩; exact ⟨_, _, hread, rfl⟩⟩
  | appendChild fragment =>
    obtain ⟨form, hread, hedit⟩ := Except.exists_ok_of_bind h
    exact .inl ⟨replacements_moved hedit, .appendChild form.draft, ok_of_moved hedit,
      by rintro d ⟨⟩; exact ⟨_, _, hread, rfl⟩⟩
  | rename query replacement options =>
    obtain ⟨matcher, -, h⟩ := Except.exists_ok_of_bind h
    obtain ⟨⟨cursor, count⟩, hrename, h⟩ := Except.exists_ok_of_bind h
    obtain rfl := Except.ok.inj h
    exact .inr (.inl ⟨matcher, replacement, count, hrename, rfl⟩)
  | extract name =>
    obtain ⟨cursor, hcursor, h⟩ := Except.exists_ok_of_bind h
    obtain rfl := Except.ok.inj h
    exact .inr (.inr ⟨rfl, .inl ⟨name, hcursor⟩⟩)
  | thread style =>
    obtain ⟨cursor, hcursor, h⟩ := Except.exists_ok_of_bind h
    obtain rfl := Except.ok.inj h
    exact .inr (.inr ⟨rfl, .inr ⟨style, hcursor⟩⟩)
  | findNext query options =>
    obtain ⟨matcher, -, h⟩ := Except.exists_ok_of_bind h
    obtain ⟨cursor, hcursor, h⟩ := Except.exists_ok_of_bind h
    obtain rfl := Except.ok.inj h
    obtain ⟨path, hgoto⟩ := exists_goto_of_findNext hcursor
    exact .inl ⟨rfl, .goto path, hgoto, by rintro d ⟨⟩⟩

theorem Mutation.edits {config : Config} {c : Cursor} {applied : Applied} {m : Mutation} (hc : c.InOrder strict)
    (h : m.apply config c = .ok applied) : Edits strict c applied.cursor := by
  rcases apply_eq_ok h with ⟨-, op, hrun, hform⟩ | ⟨matcher, replacement, count, hrename, -⟩ |
    ⟨-, ⟨name, hextract⟩ | ⟨style, hthread⟩⟩
  · have hkept : ∀ d ∈ op.form?, Draft.Kept .grammar c.fresh d := by
      intro d hd
      obtain ⟨fragment, form, hread, rfl⟩ := hform d hd
      exact Tree.kept_of_readFragment hread (Care.grammar_allows fragment) c.fresh
    exact Edits.refl.step op (fun d hd => (hkept d hd).fits) (fun d hd => (hkept d hd).ready.root) hrun
  · exact edits_rename hrename
  · exact edits_extract hc hextract
  · exact edits_thread hc hthread

theorem Mutation.runs {config : Config} {c : Cursor} {applied : Applied} {m : Mutation} (hc : c.InOrder strict)
    (h : m.apply config c = .ok applied) : Runs strict c applied.cursor :=
  (Mutation.edits hc h).runs

/-! ## Paths that lead back -/

namespace Cursor

variable {start : Stamp} {c : Cursor} {t : Tree}

theorem Runs.retraces (h : Runs strict (ofTree start t) c) : ∃ c', c.goto c.path = .ok c' ∧ Retraces c c' :=
  (h.steady (steady_ofTree start t)).retraces (h.faced (steady_ofTree start t) trivial)

/-- However many frames are out of step, going to the path of a cursor leads to where it is, and the cursor there tells
the same about its place. So does going to the path that a mutation reports. -/
theorem path_leads_back (h : Runs False (ofTree start t) c) :
    (∃ c', c.goto c.path = .ok c' ∧ Retraces c c') ∧
      ∀ (config : Config) (m : Mutation) (applied : Applied), m.apply config c = .ok applied →
        ∃ c', applied.cursor.goto applied.cursor.location.path = .ok c' ∧ Retraces applied.cursor c' ∧
          c'.location = applied.cursor.location := by
  refine ⟨h.retraces, fun config m applied hm => ?_⟩
  have hruns : Runs False c applied.cursor := Mutation.runs ⟨h.steady (steady_ofTree start t), False.elim⟩ hm
  obtain ⟨c', hgoto, hretraces⟩ := (h.trans hruns).retraces
  exact ⟨c', hgoto, hretraces, hretraces.location⟩

/-- Two lists deep, the outer frames still hold the list as it was when its first form was replaced. -/
theorem path_leads_back_stale :
    ∃ c, Runs False (ofTree (Supply.outside 0).first
        (.root [.composite () (.bracket .list) [.composite () (.bracket .list)
        [.atom () ⟨.symbol, ['a']⟩, .trivia () (.whitespace [' ']), .atom () ⟨.symbol, ['d']⟩]]])) c ∧
      inStepFrom c.node c.frames = false ∧ c.source = "((b d))".toList ∧ c.path = [0, 0, 0] ∧
        (∃ c', c.goto [0, 0, 0] = .ok c' ∧ Retraces c c') ∧
          ∃ applied, (Mutation.navigate .right).apply {} c = .ok applied ∧ applied.cursor.location.path = [0, 0, 1] ∧
            ∃ c', applied.cursor.goto [0, 0, 1] = .ok c' ∧ Retraces applied.cursor c' := by
  have hreach : Runs False (ofTree (Supply.outside 0).first
      (.root [.composite () (.bracket .list) [.composite () (.bracket .list)
        [.atom () ⟨.symbol, ['a']⟩, .trivia () (.whitespace [' ']), .atom () ⟨.symbol, ['d']⟩]]])) _ :=
    (Runs.refl.step (.goto [0, 0, 0]) (by rintro d ⟨⟩) rfl).step (.replace (.atom none ⟨.symbol, ['b']⟩))
      (by rintro d ⟨⟩; exact Draft.fits_atom _) rfl
  obtain ⟨hback, hbacks⟩ := path_leads_back hreach
  obtain ⟨c', hgoto, hretraces, -⟩ := hbacks {} (.navigate .right) _ rfl
  exact ⟨_, hreach, by decide +kernel, by decide +kernel, by decide +kernel, hback, _, rfl, by decide +kernel, c', hgoto,
    hretraces⟩

end Cursor

/-! ## Documents under mutations -/

namespace Document

variable {d : Document}

theorem inOrder_read {start : Stamp} {source : Text} {origin : Origin} (h : Document.read start source origin = .ok d) :
    d.cursor.InOrder strict := by
  have hkept : d.cursor.Kept .grammar := kept_read h (Care.grammar_allows source)
  refine ⟨⟨hkept.valid.on.steady, fun _ => hkept.valid.on.form⟩, fun _ => ⟨?_, hkept.valid.root⟩⟩
  exact hkept.valid.made.grammatical.built

theorem runs_attempt (config : Config) (hd : d.cursor.InOrder strict) (m : Mutation) :
    Cursor.Runs strict d.cursor (d.attempt config m).cursor := by
  rw [attempt]
  cases happly : d.apply config m with
  | error e => exact .refl
  | ok result =>
    obtain ⟨applied, hm, hresult⟩ := Except.exists_ok_of_bind happly
    obtain rfl := Except.ok.inj hresult
    exact Mutation.runs hd hm

theorem runs_attemptAll (config : Config) (hd : d.cursor.InOrder strict) (ms : List Mutation) :
    Cursor.Runs strict d.cursor (d.attemptAll config ms).cursor := by
  induction ms generalizing d with
  | nil => exact .refl
  | cons m ms ih =>
    have hruns : Cursor.Runs strict d.cursor (d.attempt config m).cursor := runs_attempt config hd m
    exact hruns.trans (ih (hruns.inOrder hd))

/-- With any settings, the tree of a document after any mutations is a document with none inside, every mark in it wraps
as many forms as it has to and ends with one, the cursor rests on a form, and in the source every comment is followed by
a line break or by nothing. -/
theorem attemptAll_keeps_document (config : Config) {start : Stamp} {source : Text} {origin : Origin}
    (hread : Document.read start source origin = .ok d) (ms : List Mutation) :
    (d.attemptAll config ms).cursor.tree.isRoot = true ∧ (d.attemptAll config ms).cursor.tree.Built ∧
      (d.attemptAll config ms).cursor.node.isForm = true ∧
        ∀ m before after, m.isComment = true → Occurs m (d.attemptAll config ms).cursor.tree before after →
          (d.attemptAll config ms).source = before ++ m.text ++ after ∧
            (after = [] ∨ Text.startsWithNewline after = true) := by
  have hread : d.cursor.InOrder True := inOrder_read hread
  have horder := (runs_attemptAll config hread ms).inOrder hread
  obtain ⟨hbuilt, hroot⟩ := horder.tree
  refine ⟨hroot, hbuilt, horder.isForm, fun m before after hm hoccurs => ⟨hoccurs.text, ?_⟩⟩
  rcases hoccurs.ended hm hbuilt with hstarts | ⟨hnil, -⟩
  · exact .inr hstarts
  · exact .inl hnil

/-- A comment that comes to stand in front of a closing delimiter. -/
theorem attemptAll_keeps_document_removal :
    ∃ d, Document.read (Supply.outside 0).first "(f ;c\n b)".toList = .ok d ∧
      (d.attemptAll {} [.goto [0, 1], .remove]).source = "(f ;c\n)".toList ∧
        (d.attemptAll {} [.goto [0, 1], .remove]).cursor.tree.Built ∧
          ∀ m before after, m.isComment = true →
            Occurs m (d.attemptAll {} [.goto [0, 1], .remove]).cursor.tree before after →
              "(f ;c\n)".toList = before ++ m.text ++ after ∧ (after = [] ∨ Text.startsWithNewline after = true) := by
  obtain ⟨d, hread, hsource⟩ := exists_of_run (Supply.outside 0).first "(f ;c\n b)".toList
    [.goto [0, 1], .remove] "(f ;c\n)".toList (by decide +kernel)
  obtain ⟨-, hbuilt, -, hcomments⟩ := attemptAll_keeps_document {} hread [.goto [0, 1], .remove]
  rw [hsource] at hcomments
  exact ⟨d, hread, hsource, hbuilt, hcomments⟩

end Document

end SexprEdit
