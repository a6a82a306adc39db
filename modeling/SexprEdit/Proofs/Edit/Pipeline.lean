import SexprEdit.Proofs.Cursor.Order
import SexprEdit.Proofs.Edit.Drafts

/-!
# What a pipeline stands for

A pipeline is expanded step by step (`ThreadStyle.expand`): a list receives what the steps before it make of the seed as
its first or last argument, any other step is called with it. Taking one argument out of a call leaves a step that makes
the call again when it receives that argument (`Node.peels_of_peel?`), so all steps together make the nested call that
they were taken from (`Node.peeled_peelWithin`). What is left at the core is no call with arguments.
-/

namespace SexprEdit

/-- A list that begins with a symbol or a keyword, as a tree without trivia: its head and the forms behind it. -/
def Tree.CallOf (n : Tree) (head : Atom) (args : List Tree) : Prop :=
  n = .composite () (.bracket .list) (.atom () head :: args) ∧ (head.kind = .symbol ∨ head.kind = .keyword)

namespace ThreadStyle

def argument? : ThreadStyle → List Tree → Option Tree
  | first, args => args.head?
  | last, args => args.getLast?

/-- A call whose threaded argument is a call. -/
def Nested (style : ThreadStyle) (n : Tree) : Prop :=
  ∃ head args argument, n.CallOf head args ∧ style.argument? args = some argument ∧
    ∃ inner more, argument.CallOf inner more

/-- A step with the form that it receives: a list takes it right behind its head or at its end, any other step is called
with it. -/
def receive : ThreadStyle → Tree → Tree → Tree
  | first, acc, .composite label (.bracket .list) (head :: args) =>
    .composite label (.bracket .list) (head :: acc :: args)
  | last, acc, .composite label (.bracket .list) (head :: args) =>
    .composite label (.bracket .list) (head :: args ++ [acc])
  | _, acc, step => .composite () (.bracket .list) [step, acc]

/-- The form that a pipeline stands for: each step receives what those before it make of the seed. -/
def expand (style : ThreadStyle) (seed : Tree) (steps : List Tree) : Tree :=
  steps.foldl style.receive seed

example : expand .last (.atom () ⟨.symbol, ['x']⟩) [.atom () ⟨.symbol, ['h']⟩,
    .composite () (.bracket .list) [.atom () ⟨.symbol, ['g']⟩, .atom () ⟨.symbol, ['b']⟩]] =
      .composite () (.bracket .list) [.atom () ⟨.symbol, ['g']⟩, .atom () ⟨.symbol, ['b']⟩,
        .composite () (.bracket .list) [.atom () ⟨.symbol, ['h']⟩, .atom () ⟨.symbol, ['x']⟩]] := rfl

/-- The forms around the threaded argument: none before it or none after it. -/
def Flanks : ThreadStyle → List Tree → List Tree → Prop
  | first, left, _ => left = []
  | last, _, right => right = []

variable {style : ThreadStyle} {left right : List Tree}

theorem Flanks.argument? (h : style.Flanks left right) (a : Tree) : style.argument? (left ++ a :: right) = some a := by
  cases style with
  | first =>
    obtain rfl : left = [] := h
    rfl
  | last =>
    obtain rfl : right = [] := h
    exact List.getLast?_concat

theorem Flanks.receive (h : style.Flanks left right) (head a : Tree) :
    style.receive a (.composite () (.bracket .list) (head :: (left ++ right))) =
      .composite () (.bracket .list) (head :: (left ++ a :: right)) := by
  cases style with
  | first =>
    obtain rfl : left = [] := h
    rfl
  | last =>
    obtain rfl : right = [] := h
    rw [List.append_nil]
    rfl

theorem expand_concat (style : ThreadStyle) (seed : Tree) (steps : List Tree) (step : Tree) :
    style.expand seed (steps ++ [step]) = style.receive (style.expand seed steps) step :=
  List.foldl_concat style.receive seed step steps

end ThreadStyle

namespace Node

variable {ι : Type} {style : ThreadStyle}

/-! ## Calls -/

theorem isCallable_iff {n : Node ι} :
    n.isCallable = true ↔ ∃ head, n.shape = .atom () head ∧ (head.kind = .symbol ∨ head.kind = .keyword) := by
  cases n with
  | atom label a => simp [isCallable, shape]
  | _ => simp [isCallable, shape]

theorem isCall_iff {n : Node ι} : n.isCall = true ↔ ∃ head args, n.shape.CallOf head args := by
  by_cases hlist : ∃ label children, n = .composite label (.bracket .list) children
  · obtain ⟨label, children, rfl⟩ := hlist
    rw [isCall, ← List.head?_filter, shape, shapeAll_eq]
    cases children.filter isForm with
    | nil => simp [Tree.CallOf]
    | cons m ms =>
      rw [List.head?_cons, Option.any_some, isCallable_iff]
      simp only [Tree.CallOf, List.map_cons, composite.injEq, List.cons.injEq, true_and]
      constructor
      · rintro ⟨head, hhead, hkind⟩
        exact ⟨head, ms.map shape, ⟨hhead, rfl⟩, hkind⟩
      · rintro ⟨head, args, ⟨hhead, -⟩, hkind⟩
        exact ⟨head, hhead, hkind⟩
  · constructor
    · intro hcall
      rw [isCall.eq_def] at hcall
      split at hcall
      · exact absurd ⟨_, _, rfl⟩ hlist
      · cases hcall
    · rintro ⟨head, args, hshape, -⟩
      cases n with
      | composite label kind children =>
        rw [shape] at hshape
        obtain ⟨-, rfl, -⟩ := composite.inj hshape
        exact absurd ⟨_, _, rfl⟩ hlist
      | _ => cases hshape

theorem weight_pos {n : Node ι} (h : n.isForm = true) : 0 < n.weight := by
  cases n with
  | trivia label t => cases h
  | atom label a => exact Nat.one_pos
  | composite label kind children => exact Nat.succ_pos _

theorem cutAtArgument?_eq_none_iff {ns : List Cell} : cutAtArgument? style ns = none ↔ formCount ns ≤ 1 := by
  cases style with
  | first => exact cutAtForm?_eq_none_iff
  | last =>
    rw [cutAtArgument?]
    split_ifs with hfew
    · exact ⟨fun _ => Nat.le_of_lt_succ hfew, fun _ => rfl⟩
    · constructor
      · intro hnone
        rw [formCount_eq_zero (cutAtLast?_eq_none hnone)]
        exact Nat.zero_le 1
      · intro hle
        omega

theorem exists_flanks {ns : List Cell} {cut : Cut Cell} (h : cutAtArgument? style ns = some cut) :
    ∃ head left, shapeAll cut.before = head :: left ∧ style.Flanks left (shapeAll cut.after) ∧
      shapeAll ns = head :: (left ++ cut.focus.shape :: shapeAll cut.after) := by
  have hshape := (cutAtArgument?_eq_some h).shapeAll
  suffices hbefore : ∃ head left, shapeAll cut.before = head :: left ∧ style.Flanks left (shapeAll cut.after) by
    obtain ⟨head, left, hbefore, hflanks⟩ := hbefore
    exact ⟨head, left, hbefore, hflanks, by rw [hshape, hbefore, List.cons_append]⟩
  cases style with
  | first =>
    have hlength : (shapeAll cut.before).length = 1 := (length_shapeAll _).trans (formCount_cutAtForm? h)
    obtain ⟨head, hhead⟩ := List.length_eq_one_iff.mp hlength
    exact ⟨head, [], hhead, rfl⟩
  | last =>
    rw [cutAtArgument?] at h
    split_ifs at h with hfew
    have hafter : shapeAll cut.after = [] := by
      rw [← List.length_eq_zero_iff, length_shapeAll, formCount_eq_zero (cutAtLast?_eq_some h).2]
    have hlength : (shapeAll ns).length = (shapeAll cut.before).length + 1 := by
      rw [hshape, hafter, List.length_append, List.length_singleton]
    rw [length_shapeAll] at hlength
    obtain ⟨head, left, hbefore⟩ := List.exists_cons_of_length_pos (l := shapeAll cut.before) (by omega)
    exact ⟨head, left, hbefore, hafter⟩

/-! ## Taking out one argument -/

theorem shapeAll_filter_blank (ns : List (Node ι)) : shapeAll (ns.filter (!·.isWhitespace)) = shapeAll ns := by
  induction ns with
  | nil => rfl
  | cons n ns ih =>
    by_cases hn : n.isWhitespace = true
    · rw [List.filter_cons_of_neg (by simp [hn]), ih, shapeAll_cons, if_neg (by simp [isForm_of_isWhitespace hn])]
    · rw [List.filter_cons_of_pos (by simp [hn]), shapeAll_cons, shapeAll_cons, ih]

theorem commentsAll_filter_blank (ns : List (Node ι)) : commentsAll (ns.filter (!·.isWhitespace)) = commentsAll ns := by
  induction ns with
  | nil => rfl
  | cons n ns ih =>
    by_cases hn : n.isWhitespace = true
    · have hblank : commentsAll [n] = [] := commentsAll_eq_nil (by simpa using hn)
      rw [List.filter_cons_of_neg (by simp [hn]), ih, ← List.singleton_append, commentsAll_append, hblank,
        List.nil_append]
    · rw [List.filter_cons_of_pos (by simp [hn]), commentsAll_cons, commentsAll_cons, ih]

theorem single_of_filter {ns : List (Node ι)} {other head : Node ι} (hfilter : ns.filter (!·.isWhitespace) = [other])
    (hfind : ns.find? isForm = some head) :
    head.isForm = true ∧ shapeAll ns = [head.shape] ∧ commentsAll ns = head.comments := by
  have hform : head.isForm = true := List.find?_some hfind
  have hmem : head ∈ ns.filter (!·.isWhitespace) := by
    refine List.mem_filter.mpr ⟨List.mem_of_find?_eq_some hfind, ?_⟩
    cases head with
    | trivia label t => cases hform
    | _ => rfl
  rw [hfilter] at hmem
  obtain rfl := List.mem_singleton.mp hmem
  refine ⟨hform, ?_, ?_⟩
  · rw [← shapeAll_filter_blank, hfilter, shapeAll_cons, if_pos hform, shapeAll_nil]
  · rw [← commentsAll_filter_blank, hfilter, commentsAll_cons]
    exact List.append_nil _

/-- A call cut at its threaded argument, and the step, which is all the rest of the call or the one form in it. -/
theorem exists_rest {n argument : Cell} {step : Draft} (h : peel? style n = some (step, argument)) :
    ∃ label children cut, ∃ rest : List Draft, n = .composite label (.bracket .list) children ∧ n.isCall = true ∧
      cutAtArgument? style children = some cut ∧ cut.focus = argument ∧
        shapeAll rest = shapeAll cut.before ++ shapeAll cut.after ∧
          commentsAll rest = commentsAll cut.before ++ commentsAll cut.after ∧
            (step.isForm = true ∧ shapeAll rest = [step.shape] ∧ commentsAll rest = step.comments ∨
              step = .composite none (.bracket .list) rest) := by
  rw [peel?] at h
  split_ifs at h with hcall
  obtain ⟨cut, hcut, hparts⟩ := Option.map_eq_some_iff.mp h
  obtain ⟨label, children, rfl⟩ : ∃ label children, n = .composite label (.bracket .list) children := by
    rw [isCall.eq_def] at hcall
    split at hcall
    · exact ⟨_, _, rfl⟩
    · cases hcall
  obtain ⟨hstep, hfocus⟩ := Prod.mk.inj hparts
  obtain ⟨blanks, hdrop, hblanks⟩ := Cursor.exists_dropBlanksRight cut.before
  have hforms : shapeAll (dropBlanksRight cut.before) = shapeAll cut.before := by
    conv_rhs => rw [hdrop, shapeAll_append, shapeAll_eq_nil hblanks, List.append_nil]
  have hcomments : commentsAll (dropBlanksRight cut.before) = commentsAll cut.before := by
    conv_rhs => rw [hdrop, commentsAll_append, commentsAll_eq_nil hblanks, List.append_nil]
  generalize needsGap (.bracket .list) (dropBlanksRight cut.before).getLast? cut.after.head? = needed at hstep
  have hgap : ∀ d ∈ blankIf needed (none : Option Stamp), d.isWhitespace = true := by
    cases needed <;> simp [blankIf, space, isWhitespace]
  generalize blankIf needed none = gap at hstep hgap
  refine ⟨label, children, cut, (dropBlanksRight cut.before).map kept ++ gap ++ cut.after.map kept, rfl, hcall, hcut,
    hfocus, ?_, ?_, ?_⟩
  · rw [shapeAll_append, shapeAll_append, shapeAll_map_kept, shapeAll_map_kept, shapeAll_eq_nil hgap, hforms,
      List.append_nil]
  · rw [commentsAll_append, commentsAll_append, commentsAll_map_kept, commentsAll_map_kept, commentsAll_eq_nil hgap,
      hcomments, List.append_nil]
  · rw [← hstep]
    split
    · next hfilter hfind => exact .inl (single_of_filter hfilter hfind)
    · exact .inr rfl

/-- What one argument taken out of a call leaves: a step that makes the call again when it receives the argument. No
comment is lost. -/
structure Peels (style : ThreadStyle) (n : Cell) (step : Draft) (argument : Cell) : Prop where
  call : ∃ head args, n.shape.CallOf head args ∧ style.argument? args = some argument.shape
  receives : style.receive argument.shape step.shape = n.shape
  comments : List.Perm (step.comments ++ argument.comments) n.comments
  weight : argument.weight < n.weight
  step_form : step.isForm = true
  argument_form : argument.isForm = true

theorem peels_of_peel? {n argument : Cell} {step : Draft} (h : peel? style n = some (step, argument)) :
    Peels style n step argument := by
  obtain ⟨label, children, cut, rest, rfl, hcall, hcut, rfl, hrest, hcomments, hstep⟩ := exists_rest h
  have hcuts : CutsAtForm children cut := cutAtArgument?_eq_some hcut
  obtain ⟨first, left, hbefore, hflanks, hforms⟩ := exists_flanks hcut
  obtain ⟨head, args, hshape, hkind⟩ := isCall_iff.mp hcall
  rw [shape, hforms] at hshape
  obtain ⟨-, -, hitems⟩ := composite.inj hshape
  obtain ⟨rfl, rfl⟩ := List.cons.inj hitems
  rw [hbefore, List.cons_append] at hrest
  have hform : step.isForm = true ∧ step.comments = commentsAll rest ∧
      style.receive cut.focus.shape step.shape =
        .composite () (.bracket .list) (.atom () head :: (left ++ cut.focus.shape :: shapeAll cut.after)) := by
    rcases hstep with ⟨hform, hsingle, hsame⟩ | rfl
    · -- the head is all that is left, and an atom
      rw [hrest] at hsingle
      obtain ⟨hatom, hnone⟩ := List.cons.inj hsingle
      obtain ⟨rfl, hafter⟩ := List.append_eq_nil_iff.mp hnone
      refine ⟨hform, hsame.symm, ?_⟩
      rw [← hatom, hafter]
      cases style <;> rfl
    · refine ⟨rfl, rfl, ?_⟩
      rw [shape, hrest]
      exact hflanks.receive _ _
  refine ⟨⟨head, left ++ cut.focus.shape :: shapeAll cut.after, ⟨by rw [shape, hforms], hkind⟩, hflanks.argument? _⟩,
    by rw [hform.2.2, shape, hforms], ?_, ?_, hform.1, hcuts.form⟩
  · rw [hform.2.1, hcomments, comments, hcuts.commentsAll, List.append_assoc]
    exact List.perm_append_comm.append_left _
  · have hmem : cut.focus ∈ children := by
      rw [hcuts.whole]
      simp
    exact Nat.lt_succ_of_le (Cursor.weight_le_weightAll hmem)

theorem peel?_eq_none_iff {n : Cell} : peel? style n = none ↔ ∀ head args, n.shape.CallOf head args → args = [] := by
  constructor
  · intro hnone head args hcallOf
    have hcall : n.isCall = true := isCall_iff.mpr ⟨head, args, hcallOf⟩
    rw [peel?, if_pos hcall, Option.map_eq_none_iff, cutAtArgument?_eq_none_iff] at hnone
    have hforms : n.shape.children = shapeAll n.children := by
      cases n <;> rfl
    rw [← length_shapeAll, ← hforms, hcallOf.1] at hnone
    have hlength : args.length + 1 ≤ 1 := hnone
    exact List.eq_nil_of_length_eq_zero (by omega)
  · intro hnone
    by_contra hsome
    obtain ⟨⟨step, argument⟩, hpeel⟩ := Option.ne_none_iff_exists'.mp hsome
    obtain ⟨head, args, hcallOf, hargument⟩ := (peels_of_peel? hpeel).call
    rw [hnone head args hcallOf] at hargument
    cases style <;> cases hargument

/-! ## Taking calls apart -/

/-- What a nested call is taken apart into: steps that make it again from the seed, outermost first, and a seed that is no
call with arguments. No comment is lost. -/
structure Peeled (style : ThreadStyle) (n : Cell) (steps : List Draft) (seed : Cell) : Prop where
  expands : style.expand seed.shape (steps.map shape).reverse = n.shape
  comments : List.Perm (commentsAll steps ++ seed.comments) n.comments
  bare : ∀ head args, seed.shape.CallOf head args → args = []
  steps_form : ∀ d ∈ steps, d.isForm = true
  seed_form : seed.isForm = true

theorem Peels.peeled {n argument seed : Cell} {step : Draft} {steps : List Draft} (h : Peels style n step argument)
    (hargument : Peeled style argument steps seed) : Peeled style n (step :: steps) seed := by
  refine ⟨?_, ?_, hargument.bare, List.forall_mem_cons.mpr ⟨h.step_form, hargument.steps_form⟩, hargument.seed_form⟩
  · rw [List.map_cons, List.reverse_cons, style.expand_concat, hargument.expands, h.receives]
  · rw [commentsAll_cons, List.append_assoc]
    exact (hargument.comments.append_left step.comments).trans h.comments

theorem peeled_peelWithin {n : Cell} {fuel : Nat} (hn : n.isForm = true) (hfuel : n.weight ≤ fuel) :
    Peeled style n (peelWithin style fuel n).1 (peelWithin style fuel n).2 := by
  induction fuel generalizing n with
  | zero =>
    have hpos := weight_pos hn
    omega
  | succ fuel ih =>
    rw [peelWithin]
    cases hpeel : peel? style n with
    | none => exact ⟨rfl, List.Perm.refl _, peel?_eq_none_iff.mp hpeel, List.forall_mem_nil _, hn⟩
    | some parts =>
      have hpeels : Peels style n parts.1 parts.2 := peels_of_peel? hpeel
      have hless := hpeels.weight
      exact hpeels.peeled (ih hpeels.argument_form (by omega))

theorem commentsAll_eq (ns : List (Node ι)) : commentsAll ns = ns.flatMap comments := by
  induction ns with
  | nil => rfl
  | cons n ns ih => rw [commentsAll_cons, ih, List.flatMap_cons]

theorem Peeled.comments_pipeline {n seed : Cell} {steps : List Draft} (h : Peeled style n steps seed) :
    List.Perm (Draft.spaced .list (Draft.symbol style.arrow :: seed.kept :: steps.reverse)).comments n.comments := by
  have hreverse : List.Perm (commentsAll steps.reverse) (commentsAll steps) := by
    rw [commentsAll_eq, commentsAll_eq]
    exact (List.reverse_perm steps).flatMap_right _
  rw [Draft.comments_spaced, commentsAll_cons, commentsAll_cons, comments_kept]
  refine List.Perm.trans ?_ h.comments
  exact (hreverse.append_left _).trans List.perm_append_comm

end Node

namespace Cursor

open Node

variable {c : Cursor} {t : Tree} {style : ThreadStyle}

/-- Which forms can be threaded. -/
theorem nested_iff (n : Cell) :
    style.Nested n.shape ↔ ∃ step argument, peel? style n = some (step, argument) ∧ argument.isCall = true := by
  constructor
  · rintro ⟨head, args, argument, hcallOf, hargument, hinner⟩
    cases hpeel : peel? style n with
    | none =>
      rw [peel?_eq_none_iff.mp hpeel head args hcallOf] at hargument
      cases style <;> cases hargument
    | some parts =>
      have hpeels : Peels style n parts.1 parts.2 := peels_of_peel? hpeel
      obtain ⟨head', args', hcallOf', hargument'⟩ := hpeels.call
      rw [hcallOf.1] at hcallOf'
      obtain ⟨-, -, hitems⟩ := composite.inj hcallOf'.1
      obtain ⟨-, rfl⟩ := List.cons.inj hitems
      rw [hargument'] at hargument
      obtain rfl := Option.some.inj hargument
      exact ⟨parts.1, parts.2, rfl, isCall_iff.mpr hinner⟩
  · rintro ⟨step, argument, hpeel, hcall⟩
    obtain ⟨head, args, hcallOf, hargument⟩ := (peels_of_peel? hpeel).call
    exact ⟨head, args, argument.shape, hcallOf, hargument, isCall_iff.mp hcall⟩

theorem frames_ne_nil_of_nested (hc : c.Steady) (hroot : c.tree.isRoot = true) (h : style.Nested c.node.shape) :
    c.frames ≠ [] := by
  intro hframes
  obtain ⟨head, args, -, ⟨hshape, -⟩, -⟩ := h
  rw [← isRoot_plain, hc.stamps.plain_tree, isRoot_plain, whole, hframes] at hroot
  have hnode : c.node.shape.isRoot = true := (isRoot_shape _).trans hroot
  rw [hshape] at hnode
  cases hnode

theorem thread_eq_error_iff (c : Cursor) : c.thread style = .error .notNestedCall ↔ ¬ style.Nested c.node.shape := by
  rw [nested_iff, thread]
  cases hpeel : peel? style c.node with
  | none => simp
  | some parts =>
    obtain ⟨step, argument⟩ := parts
    by_cases hcall : argument.isCall = true
    · simp only [hcall, if_true, Option.some.injEq, Prod.mk.injEq]
      refine iff_of_false (fun herror => ?_) (not_not.mpr ⟨step, argument, ⟨rfl, rfl⟩, hcall⟩)
      -- an edit of the cursor that fails gives another error
      cases hedit : c.replace _ with
      | ok d => rw [hedit] at herror; cases herror
      | error err => rw [hedit] at herror; cases herror
    · simp only [hcall, Option.some.injEq, Prod.mk.injEq]
      refine iff_of_true rfl ?_
      rintro ⟨step', argument', ⟨rfl, rfl⟩, hcall'⟩
      exact hcall hcall'

theorem exists_thread (hc : c.Steady) (hframes : c.frames ≠ []) (h : style.Nested c.node.shape) :
    ∃ d steps seed, c.thread style = .ok d ∧ d.path = c.path ∧ steps ≠ [] ∧ Peeled style c.node steps seed ∧
      d.node.plain = (Draft.spaced .list (Draft.symbol style.arrow :: seed.kept :: steps.reverse)).plain ∧
        Edited Padding (fun m m' => m = c.node.plain ∧ m' = d.node.plain) c.path c.tree.plain d.tree.plain := by
  obtain ⟨step, argument, hpeel, hcall⟩ := (nested_iff c.node).mp h
  have hpeels := peels_of_peel? hpeel
  have hpeeled := hpeels.peeled (peeled_peelWithin hpeels.argument_form (Nat.le_refl _))
  have horder : c.InOrder False := ⟨hc, False.elim⟩
  obtain ⟨hstep, hargument⟩ := Draft.fits_peel? horder.children hpeel
  obtain ⟨hsteps, hseed⟩ := Draft.fits_peelWithin style hargument argument.weight
  have hfits : Draft.Fits False c.fresh (Draft.spaced .list (Draft.symbol style.arrow ::
      (peelWithin style argument.weight argument).2.kept ::
        (step :: (peelWithin style argument.weight argument).1).reverse)) := by
    refine Draft.fits_spaced .list (List.forall_mem_cons.mpr ⟨Draft.fits_atom _, List.forall_mem_cons.mpr ⟨hseed, ?_⟩⟩)
    intro d hd
    rcases List.mem_cons.mp (List.mem_reverse.mp hd) with rfl | hd
    · exact hstep
    · exact hsteps d hd
  obtain ⟨d, hreplace, -, hnode, hpath, hedited⟩ := hc.replace hframes hfits.keeps rfl
  rw [← hnode] at hedited
  refine ⟨d, _, _, ?_, hpath, List.cons_ne_nil _ _, hpeeled, hnode, hedited⟩
  rw [thread, hpeel]
  simp only [hcall, if_true, hreplace]
  rfl

/-- Threading preserves the call. It fails exactly if the current form is not a call whose threaded argument is a call.
Else it makes a list of the arrow, a seed and steps, which stands for the call that was there. The seed is no call with
arguments, no comment is lost, and outside the form nothing changes but for single blanks beside the nodes that hold
it. -/
theorem thread_preserves_call {start : Stamp} (style : ThreadStyle) (h : Runs False (ofTree start t) c)
    (hroot : c.tree.isRoot = true) :
    (c.thread style = .error .notNestedCall ↔ ¬ style.Nested c.node.shape) ∧
      (style.Nested c.node.shape → ∃ (d : Cursor) (seed : Tree) (steps : List Tree),
        c.thread style = .ok d ∧ d.path = c.path ∧
        d.node.shape = .composite () (.bracket .list) (.atom () ⟨.symbol, style.arrow⟩ :: seed :: steps) ∧ steps ≠ [] ∧
          style.expand seed steps = c.node.shape ∧ (∀ head args, seed.CallOf head args → args = []) ∧
            List.Perm d.node.comments c.node.comments ∧
              Edited Padding (fun m m' => m = c.node.plain ∧ m' = d.node.plain) c.path c.tree.plain d.tree.plain) := by
  have hc : c.Steady := h.steady (steady_ofTree start t)
  refine ⟨thread_eq_error_iff c, fun hnested => ?_⟩
  obtain ⟨d, steps, seed, hthread, hpath, hsteps, hpeeled, hnode, hedited⟩ :=
    exists_thread hc (frames_ne_nil_of_nested hc hroot hnested) hnested
  refine ⟨d, seed.shape, (steps.map shape).reverse, hthread, hpath, ?_, by simpa using hsteps, hpeeled.expands,
    hpeeled.bare, ?_, hedited⟩
  · rw [← shape_plain, hnode, shape_plain, Draft.shape_spaced]
    · simp [Draft.symbol, shape]
    · refine List.forall_mem_cons.mpr ⟨rfl, List.forall_mem_cons.mpr ⟨(isForm_kept seed).trans hpeeled.seed_form, ?_⟩⟩
      intro step hstep
      exact hpeeled.steps_form step (List.mem_reverse.mp hstep)
  · rw [← comments_plain, hnode, comments_plain]
    exact hpeeled.comments_pipeline

/-- Calls nested in the last argument, with a comment that keeps one of the steps a list. -/
theorem thread_preserves_call_comment :
    ∃ c, Runs False (ofTree (Supply.outside 0).first (.root [.composite () (.bracket .list) [.atom () ⟨.symbol, ['f']⟩,
        .composite () (.bracket .list) [.atom () ⟨.keyword, [':', 'k']⟩, .trivia () (.comment ";c".toList),
          .trivia () (.whitespace ['\n']), .atom () ⟨.symbol, ['x']⟩]]])) c ∧ c.tree.isRoot = true ∧
      c.source = "(f(:k;c\nx))".toList ∧
        ∃ d seed steps, c.thread .last = .ok d ∧ d.source = "(->> x (:k;c\n) f)".toList ∧
          ThreadStyle.expand .last seed steps = c.node.shape ∧ List.Perm d.node.comments c.node.comments := by
  have hreach : Runs False (ofTree (Supply.outside 0).first
      (.root [.composite () (.bracket .list) [.atom () ⟨.symbol, ['f']⟩,
      .composite () (.bracket .list) [.atom () ⟨.keyword, [':', 'k']⟩, .trivia () (.comment ";c".toList),
        .trivia () (.whitespace ['\n']), .atom () ⟨.symbol, ['x']⟩]]])) _ :=
    Runs.refl.step (.goto [0]) (by rintro d ⟨⟩) rfl
  obtain ⟨-, hthreads⟩ := thread_preserves_call .last hreach rfl
  obtain ⟨d, seed, steps, hthread, -, -, -, hexpand, -, hcomments, -⟩ :=
    hthreads ⟨_, _, _, ⟨rfl, .inl rfl⟩, rfl, _, _, rfl, .inr rfl⟩
  refine ⟨_, hreach, rfl, by decide +kernel, d, seed, steps, hthread, ?_, hexpand, hcomments⟩
  obtain rfl := Except.ok.inj hthread
  decide +kernel

end Cursor

end SexprEdit
